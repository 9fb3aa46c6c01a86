import Famfs.Sanity.BitCount
import Famfs.Proofs.AllocBuckets

/-! When an allocation covers the file. Sizes near the limit of a `u64` round up to nothing,
the number of stripes is kept in an `int`, and a mark is made at an index of 32 bits, or lost
past the buffer. Short of that the lengths add up to the size, and as many bits are set as
units were promised. -/

namespace Famfs

open Machine Intervals

def totalLen (fmap : FamfsLogFmap) : ℕ := (fmap.extents.map FamfsSimpleExtent.seLen).sum

/-- The lengths cover the file, and the bits that were set are as many as the lengths say. -/
def Covered (size : ℕ) (before after : Bitmap) (fmap : FamfsLogFmap) : Prop :=
  size ≤ totalLen fmap ∧ newBits before after * FAMFS_ALLOC_UNIT = totalLen fmap

/-- The clear bits that marking `n` units at `p` sets. -/
def freshMarks (bitmap : Bitmap) (n p : ℕ) : Set ℕ :=
  {b | muBitmapTest bitmap b = false ∧ b < bitmap.bits ∧ Touches n p b}

/-- The contiguous search ends at a place where every mark sets a bit. -/
def MarksWhole (lp : FamfsLockedLog) (size : ℕ) : Prop :=
  ∀ p, FirstPlace lp size p →
    (freshMarks lp.bits (divUp size FAMFS_ALLOC_UNIT) p).ncard = divUp size FAMFS_ALLOC_UNIT

/-- The searches of the loop, with or without a strip, set as many bits as the strips have
units. -/
def MarksStrips (host : AllocHost) (lp : FamfsLockedLog) (size : ℕ) : Prop :=
  ((stripPasses host lp size).map fun s => Set.ncard {b | ∃ p, Takes (stripeGeometry lp size) s p ∧
      b ∈ freshMarks s.bitmap (stripeGeometry lp size).stripUnits p}).sum =
    lp.interleaveParam.nstrips * (divUp size (lp.interleaveParam.nstrips * lp.interleaveParam.chunkSize) *
      (lp.interleaveParam.chunkSize / FAMFS_ALLOC_UNIT))

/-- The `n` units from `p` on end inside the buffer and below the limit of the index. -/
def EndsInside (bitmap : Bitmap) (n p : ℕ) : Prop := n = 0 ∨ (p + n ≤ bitmap.bits ∧ p + n ≤ 2 ^ 32)

/-- The units of a file at the place that the contiguous search ends at. -/
def PlaceFits (lp : FamfsLockedLog) (size : ℕ) : Prop :=
  ∀ p, FirstPlace lp size p → EndsInside lp.bits (divUp size FAMFS_ALLOC_UNIT) p

/-- Every place that a search of the loop ends at has a positive offset and room for a strip. -/
def StripsFit (host : AllocHost) (lp : FamfsLockedLog) (size : ℕ) : Prop :=
  ∀ s ∈ stripPasses host lp size, ∀ p, Takes (stripeGeometry lp size) s p → Stored (stripeGeometry lp size) p ∧
    EndsInside lp.bits (divUp size (lp.interleaveParam.nstrips * lp.interleaveParam.chunkSize) *
      (lp.interleaveParam.chunkSize / FAMFS_ALLOC_UNIT)) p

/-- Neither the size nor the stripes of the file overflow, and its places fit. -/
def CoversWhen (host : AllocHost) (lp : FamfsLockedLog) (size : ℕ) : Prop :=
  size + FAMFS_ALLOC_UNIT ≤ 2 ^ 64 ∧
    if allocIsInterleaved lp = false then PlaceFits lp size
    else if size < lp.interleaveParam.chunkSize then PlaceFits { lp with curPos := 0 } size
    else divUp size (lp.interleaveParam.nstrips * lp.interleaveParam.chunkSize) < 2 ^ 31 ∧
      divUp size (lp.interleaveParam.nstrips * lp.interleaveParam.chunkSize) * lp.interleaveParam.chunkSize < 2 ^ 64 ∧
      StripsFit host lp size

theorem newBits_setRun (bitmap : Bitmap) (n p : ℕ) :
    newBits bitmap (setRun bitmap n p) = (freshMarks bitmap n p).ncard := by
  unfold newBits freshMarks
  congr 1
  ext b
  simp only [Set.mem_ofPred_eq, setRun_test]
  constructor
  · rintro ⟨hclear, hset | ⟨htouch, hlt⟩⟩
    · rw [hset] at hclear
      exact Bool.noConfusion hclear
    · exact ⟨hclear, hlt, htouch⟩
  · rintro ⟨hclear, hlt, htouch⟩
    exact ⟨hclear, Or.inr ⟨htouch, hlt⟩⟩

theorem freshMarks_image (bitmap : Bitmap) (n p : ℕ) : freshMarks bitmap n p ⊆ (fun t => u32 (p + t)) '' Set.Iio n := by
  rintro b ⟨-, -, t, ht, heq⟩
  exact ⟨t, ht, heq⟩

theorem freshMarks_finite (bitmap : Bitmap) (n p : ℕ) : (freshMarks bitmap n p).Finite :=
  ((Set.finite_Iio n).image _).subset (freshMarks_image bitmap n p)

theorem freshMarks_le (bitmap : Bitmap) (n p : ℕ) : (freshMarks bitmap n p).ncard ≤ n := by
  calc (freshMarks bitmap n p).ncard ≤ ((fun t => u32 (p + t)) '' Set.Iio n).ncard :=
        Set.ncard_le_ncard (freshMarks_image bitmap n p) ((Set.finite_Iio n).image _)
    _ ≤ (Set.Iio n).ncard := Set.ncard_image_le (Set.finite_Iio n)
    _ = n := by rw [Set.ncard_eq_toFinset_card', Set.toFinset_Iio, Nat.card_Iio]

theorem freshMarks_lt {bitmap : Bitmap} {n p t : ℕ} (ht : t < n) (hout : u32 (p + t) ∉ freshMarks bitmap n p) :
    (freshMarks bitmap n p).ncard < n := by
  have hsub : freshMarks bitmap n p ⊆ (fun t => u32 (p + t)) '' (Set.Iio n \ {t}) := by
    intro b hb
    obtain ⟨r, hr, rfl⟩ := freshMarks_image bitmap n p hb
    refine ⟨r, ⟨hr, ?_⟩, rfl⟩
    rintro rfl
    exact hout hb
  have hcard : (Set.Iio n \ {t}).ncard = n - 1 := by
    rw [Set.ncard_sdiff_singleton_of_mem (Set.mem_Iio.2 ht), Set.ncard_eq_toFinset_card', Set.toFinset_Iio, Nat.card_Iio]
  have hfin : (Set.Iio n \ {t}).Finite := (Set.finite_Iio n).sdiff
  have hle := (Set.ncard_le_ncard hsub (hfin.image _)).trans (Set.ncard_image_le hfin)
  omega

theorem endsInside_of_marks {bitmap : Bitmap} {n p : ℕ} (hp : p < 2 ^ 32) (hzero : muBitmapTest bitmap 0 = true)
    (hall : (freshMarks bitmap n p).ncard = n) : EndsInside bitmap n p := by
  by_contra hout
  rw [EndsInside, not_or, not_and_or, not_le, not_le] at hout
  obtain ⟨hpos, hend⟩ := hout
  by_cases h32 : p + n ≤ 2 ^ 32
  · -- the last mark is past the buffer
    have hlast : u32 (p + (n - 1)) = p + (n - 1) := Nat.mod_eq_of_lt (by omega)
    refine absurd hall (freshMarks_lt (t := n - 1) (by omega) fun hmem => ?_).ne
    have hlt := hmem.2.1
    rw [hlast] at hlt
    omega
  · -- the index wraps to the first bit
    have hwrap : u32 (p + (2 ^ 32 - p)) = 0 := by
      rw [Nat.add_sub_cancel' hp.le]
      rfl
    refine absurd hall (freshMarks_lt (t := 2 ^ 32 - p) (by omega) fun hmem => ?_).ne
    have hclear := hmem.1
    rw [hwrap, hzero] at hclear
    exact Bool.noConfusion hclear

theorem freshMarks_inside {bitmap : Bitmap} {n p : ℕ} (hclear : ∀ b, Seg.Has (p, n) b → muBitmapTest bitmap b = false)
    (hends : EndsInside bitmap n p) : (freshMarks bitmap n p).ncard = n := by
  rcases hends with rfl | ⟨hin, h32⟩
  · exact Nat.le_zero.1 (freshMarks_le bitmap 0 p)
  have heq : freshMarks bitmap n p = Set.Ico p (p + n) := by
    ext b
    simp only [freshMarks, Set.mem_ofPred_eq, touches_iff h32, Set.mem_Ico]
    exact ⟨fun h => h.2.2, fun h => ⟨hclear b h, by omega, h⟩⟩
  rw [heq, Set.ncard_eq_toFinset_card', Set.toFinset_Ico, Nat.card_Ico]
  omega

section

variable {g : StripeGeometry}

theorem newBits_pass (s : StripState) :
    newBits s.bitmap (passBits g s) =
      Set.ncard {b | ∃ p, Takes g s p ∧ b ∈ freshMarks s.bitmap g.stripUnits p} := by
  unfold newBits
  congr 1
  ext b
  simp only [Set.mem_ofPred_eq, passBits_test, freshMarks]
  constructor
  · rintro ⟨hclear, hset | ⟨p, ht, htouch, hlt⟩⟩
    · rw [hset] at hclear
      exact Bool.noConfusion hclear
    · exact ⟨p, ht, hclear, hlt, htouch⟩
  · rintro ⟨p, ht, hclear, hlt, htouch⟩
    exact ⟨hclear, Or.inr ⟨p, ht, htouch, hlt⟩⟩

theorem stripLoop_newBits {fuel : ℕ} {st st' : StripState} (h : stripLoop g fuel st = .ok st') :
    (∀ b, muBitmapTest st.bitmap b = true → muBitmapTest st'.bitmap b = true) ∧
      newBits st.bitmap st'.bitmap = ((stripHeads g fuel st).map fun s => newBits s.bitmap (passBits g s)).sum := by
  induction fuel generalizing st with
  | zero =>
    cases h
    simp [stripHeads, newBits]
  | succ fuel ih =>
    rw [stripLoop, Runs.bind_eq_ok] at h
    obtain ⟨⟨done, st1⟩, h1, h2⟩ := h
    have hstep := stripStep_pass h1
    have hgrow : ∀ b, muBitmapTest st.bitmap b = true → muBitmapTest st1.bitmap b = true := fun b hb => by
      rw [hstep.bitmap, passBits_test]
      exact Or.inl hb
    cases done with
    | true =>
      cases h2
      simp only [stripHeads, h1, List.map_cons, List.map_nil, List.sum_cons, List.sum_nil, Nat.add_zero]
      exact ⟨hgrow, by rw [hstep.bitmap]⟩
    | false =>
      obtain ⟨hmono, hsum⟩ := ih h2
      simp only [stripHeads, h1, List.map_cons, List.sum_cons]
      exact ⟨fun b hb => hmono b (hgrow b hb), by rw [newBits_trans hgrow hmono, hsum, hstep.bitmap]⟩

end

theorem units_wrapped {size : ℕ} (h2 : size < 2 ^ 64) (hwrap : ¬ size + FAMFS_ALLOC_UNIT ≤ 2 ^ 64) :
    u64 (size + FAMFS_ALLOC_UNIT - 1) / FAMFS_ALLOC_UNIT = 0 := by
  simp only [u64, FAMFS_ALLOC_UNIT] at hwrap ⊢
  omega

theorem roundSizeToAllocUnit_wrapped {size : ℕ} (h2 : size < 2 ^ 64) (hwrap : ¬ size + FAMFS_ALLOC_UNIT ≤ 2 ^ 64) :
    roundSizeToAllocUnit size = 0 := by
  rw [roundSizeToAllocUnit, units_wrapped h2 hwrap, Nat.zero_mul]
  rfl

section

variable {host : AllocHost} {lp lp' : FamfsLockedLog} {size : ℕ} {fmap : FamfsLogFmap}

theorem contiguous_covered_iff (hunit : lp.allocUnit = FAMFS_ALLOC_UNIT) (h1 : 1 ≤ size) (h2 : size < 2 ^ 64)
    (h : famfsFileAllocContiguous host lp size = .ok (0, some fmap, lp')) :
    Covered size lp.bits lp'.bits fmap ↔ size + FAMFS_ALLOC_UNIT ≤ 2 ^ 64 ∧ MarksWhole lp size := by
  obtain ⟨p, hp, -, rfl, rfl⟩ := famfsFileAllocContiguous_success h
  have hlen : totalLen (contiguousFmap (s64 (p * lp.allocUnit)).toNat size) = roundSizeToAllocUnit size := by
    rw [totalLen, contiguousFmap_extents, List.map_singleton, List.sum_singleton]
  have hbits : (lp.taking size p).bits = setRun lp.bits (allocBits lp.allocUnit size) p := rfl
  have hwhole : MarksWhole lp size ↔
      (freshMarks lp.bits (divUp size FAMFS_ALLOC_UNIT) p).ncard = divUp size FAMFS_ALLOC_UNIT :=
    ⟨fun h => h p hp, fun h q hq => IsLeast.unique hp hq ▸ h⟩
  have hau : 0 < FAMFS_ALLOC_UNIT := by decide
  rw [Covered, hlen, hbits, newBits_setRun, hunit, hwhole]
  by_cases hwrap : size + FAMFS_ALLOC_UNIT ≤ 2 ^ 64
  · have hlt : u64 (size + FAMFS_ALLOC_UNIT - 1) = size + FAMFS_ALLOC_UNIT - 1 := u64_of_lt (by omega)
    have hunits : allocBits FAMFS_ALLOC_UNIT size = divUp size FAMFS_ALLOC_UNIT := by
      rw [allocBits, hlt, divUp]
    have hround : roundSizeToAllocUnit size = divUp size FAMFS_ALLOC_UNIT * FAMFS_ALLOC_UNIT := by
      rw [roundSizeToAllocUnit, hlt, ← divUp]
      exact u64_of_lt (lt_of_lt_of_le (divUp_mul_lt hau) hwrap)
    rw [hround, hunits, Nat.mul_left_inj hau.ne']
    exact and_congr_left fun _ => iff_of_true (divUp_mul_ge size hau) hwrap
  · rw [roundSizeToAllocUnit_wrapped h2 hwrap]
    exact iff_of_false (fun hcov => by omega) (fun hno => hwrap hno.1)

theorem marksWhole_of_fits (hunit : lp.allocUnit = FAMFS_ALLOC_UNIT) (hwrap : size + FAMFS_ALLOC_UNIT ≤ 2 ^ 64)
    (hfits : PlaceFits lp size) : MarksWhole lp size := by
  intro p hp
  have hunits : allocBits lp.allocUnit size = divUp size FAMFS_ALLOC_UNIT := by
    rw [hunit, allocBits, u64_of_lt (by omega), divUp]
  refine freshMarks_inside (fun b hb => ?_) (hfits p hp)
  rw [← hunits] at hb
  exact hp.1.2.run b hb

theorem placeFits_of_marks (h32 : lp.nbits ≤ 2 ^ 32) (hzero : muBitmapTest lp.bits 0 = true) (hmarks : MarksWhole lp size) :
    PlaceFits lp size :=
  fun p hp => endsInside_of_marks (hp.1.1.trans_le h32) hzero (hmarks p hp)

theorem contiguous_fits (hunit : lp.allocUnit = FAMFS_ALLOC_UNIT) :
    (size + FAMFS_ALLOC_UNIT ≤ 2 ^ 64 ∧ PlaceFits lp size → size + FAMFS_ALLOC_UNIT ≤ 2 ^ 64 ∧ MarksWhole lp size) ∧
      (lp.nbits ≤ 2 ^ 32 → muBitmapTest lp.bits 0 = true → size + FAMFS_ALLOC_UNIT ≤ 2 ^ 64 ∧ MarksWhole lp size →
        size + FAMFS_ALLOC_UNIT ≤ 2 ^ 64 ∧ PlaceFits lp size) :=
  ⟨fun h => ⟨h.1, marksWhole_of_fits hunit h.1 h.2⟩, fun h32 hzero h => ⟨h.1, placeFits_of_marks h32 hzero h.2⟩⟩

theorem stripes_fit {k c l n size : ℕ} (hk : 1 ≤ k) (hpow : ∃ j, c = 2 ^ j) (hsize : size < 2 ^ 64) (h1 : 1 ≤ size)
    (hl : (l : ℤ) = s32 (divUp size (k * c)) * c % 2 ^ 64) (hn : l = n * FAMFS_ALLOC_UNIT) (hcover : size ≤ k * l)
    (hfew : k * n ≤ 2 ^ 32) : divUp size (k * c) < 2 ^ 31 := by
  obtain ⟨j, hj⟩ := hpow
  have hkc : 0 < k * c := Nat.mul_pos hk (hj ▸ Nat.two_pow_pos j)
  have hup := divUp_mul_lt (n := size) hkc
  have hle : c ≤ k * c := Nat.le_mul_of_pos_left c hk
  by_contra hmany
  have hlow := Nat.mul_le_mul_right (k * c) (not_lt.1 hmany)
  rw [s32] at hl
  split_ifs at hl with hsign
  · -- stripes were dropped
    rw [← Nat.cast_mul] at hl
    have hdrop : u32 (divUp size (k * c)) + 2 ^ 32 ≤ divUp size (k * c) := by
      simp only [u32] at hsign ⊢
      omega
    have hless : l ≤ u32 (divUp size (k * c)) * c := by omega
    have hmul := Nat.mul_le_mul_right (k * c) hdrop
    have hcover' : k * l ≤ u32 (divUp size (k * c)) * (k * c) := by
      calc k * l ≤ k * (u32 (divUp size (k * c)) * c) := Nat.mul_le_mul_left k hless
        _ = u32 (divUp size (k * c)) * (k * c) := by ring
    rw [Nat.add_mul] at hmul
    omega
  · -- the number is negative
    have hn' : n ≤ k * n := Nat.le_mul_of_pos_left n hk
    have hu : u32 (divUp size (k * c)) < 2 ^ 32 := Nat.mod_lt _ (by norm_num)
    rcases Nat.lt_trichotomy j 33 with hlt | rfl | hgt
    · have hc : c ≤ 2 ^ 32 := hj ▸ Nat.pow_le_pow_right (by norm_num) (by omega)
      have hneg : (2 ^ 32 - u32 (divUp size (k * c))) * c ≤ 2 ^ 31 * 2 ^ 32 := Nat.mul_le_mul (by omega) hc
      have hone : 1 * 1 ≤ (2 ^ 32 - u32 (divUp size (k * c))) * c := Nat.mul_le_mul (by omega) (hj ▸ Nat.two_pow_pos j)
      have hval : ((u32 (divUp size (k * c)) : ℤ) - 2 ^ 32) * c =
          -(((2 ^ 32 - u32 (divUp size (k * c))) * c : ℕ) : ℤ) := by
        rw [Nat.cast_mul, Nat.cast_sub hu.le]
        push_cast
        ring
      rw [hval] at hl
      simp only [FAMFS_ALLOC_UNIT] at hn
      omega
    · have hexact : divUp size (k * c) ≤ 2 ^ 31 := by
        rw [divUp_le hkc]
        omega
      have hval : u32 (divUp size (k * c)) = 2 ^ 31 := by
        rw [Nat.le_antisymm hexact (not_lt.1 hmany)]
        rfl
      rw [hval, hj] at hl
      norm_num at hl
      simp only [hl] at hcover
      omega
    · have hc : 2 ^ 34 ≤ c := hj ▸ Nat.pow_le_pow_right (by norm_num) hgt
      omega

theorem strip_fits {k c l size : ℕ} (hk : 1 ≤ k) (hpos : 0 < c) (hc : c < 2 ^ 64) (hfew : divUp size (k * c) < 2 ^ 31)
    (hl : (l : ℤ) = s32 (divUp size (k * c)) * c % 2 ^ 64) (hcover : size ≤ k * l) : divUp size (k * c) * c < 2 ^ 64 := by
  rw [s32_of_lt hfew, ← Nat.cast_mul] at hl
  by_contra hwrap
  have hless : l ≤ divUp size (k * c) * c - 2 ^ 64 := by omega
  have hup := divUp_mul_lt (n := size) (Nat.mul_pos hk hpos)
  have hprod : divUp size (k * c) * (k * c) = k * (divUp size (k * c) * c) := by ring
  have hmul : k * l + k * 2 ^ 64 ≤ k * (divUp size (k * c) * c) := by
    rw [← Nat.mul_add]
    exact Nat.mul_le_mul_left k (by omega)
  have hkc : k * c ≤ k * 2 ^ 64 := Nat.mul_le_mul_left k hc.le
  omega

theorem stripUnits_wrapped (hunit : lp.allocUnit = FAMFS_ALLOC_UNIT) (h2 : size < 2 ^ 64)
    (hwrap : ¬ size + FAMFS_ALLOC_UNIT ≤ 2 ^ 64) : (stripeGeometry lp size).stripUnits = 0 := by
  have hnone := units_wrapped h2 hwrap
  have hstripes : ∀ stripe, u64 (0 + u64 stripe - 1) / u64 stripe = 0 := by
    intro stripe
    have hlt := u64_lt stripe
    rcases Nat.eq_zero_or_pos (u64 stripe) with hzero | hpos
    · rw [hzero, Nat.div_zero]
    · rw [u64_of_lt (by omega), Nat.div_eq_of_lt (by omega)]
  have hsize : (stripeGeometry lp size).stripSizeAu = 0 := by
    simp only [stripeGeometry, hunit, hnone, hstripes]
    rw [s32_of_lt (by norm_num)]
    simp
  rw [StripeGeometry.stripUnits, hsize, Nat.zero_mul]
  change allocBits lp.allocUnit 0 = 0
  rw [hunit]
  rfl

theorem strided_covered_iff (hunit : lp.allocUnit = FAMFS_ALLOC_UNIT) (hlo : 1 ≤ lp.interleaveParam.nstrips)
    (hhi : lp.interleaveParam.nstrips ≤ 16) (hchunk : lp.interleaveParam.chunkSize < 2 ^ 64) (h1 : 1 ≤ size)
    (h2 : size < 2 ^ 64) (hle : lp.interleaveParam.chunkSize ≤ size)
    (h : famfsFileStridedAlloc host lp size = .ok (0, some fmap, lp')) :
    Covered size lp.bits lp'.bits fmap ↔ size + FAMFS_ALLOC_UNIT ≤ 2 ^ 64 ∧
      divUp size (lp.interleaveParam.nstrips * lp.interleaveParam.chunkSize) < 2 ^ 31 ∧
      divUp size (lp.interleaveParam.nstrips * lp.interleaveParam.chunkSize) * lp.interleaveParam.chunkSize < 2 ^ 64 ∧
      MarksStrips host lp size := by
  have hvalid := famfsFileStridedAlloc_valid h
  obtain ⟨hmul, hpos, -, -⟩ := famfsValidateInterleaveParam_zero hvalid hlo
  have hpow := famfsValidateInterleaveParam_pow hvalid hlo
  obtain ⟨st, hst, hheads, hend, hall, rfl, rfl⟩ := famfsFileStridedAlloc_success hlo hle h
  rw [hunit] at hmul
  have hau : 0 < FAMFS_ALLOC_UNIT := by decide
  have hlen : totalLen { st.fmap with fmapNextents := 1 } =
      lp.interleaveParam.nstrips * ((stripeGeometry lp size).stripUnits * FAMFS_ALLOC_UNIT) := by
    have hconst : FamfsSimpleExtent.seLen ∘ stripAt (stripeGeometry lp size) =
        fun _ => (stripeGeometry lp size).stripUnits * FAMFS_ALLOC_UNIT := by
      funext p
      rw [← hunit]
      exact strip_length (Or.inr hunit)
    rw [totalLen, hend.extents hall, List.map_map, hconst, List.map_const', List.sum_replicate, smul_eq_mul, ← hall,
      hend.count]
    congr 1
    exact (Nat.zero_add _).symm
  have hnew : newBits lp.bits st.bitmap = ((stripPasses host lp size).map fun s =>
      Set.ncard {b | ∃ p, Takes (stripeGeometry lp size) s p ∧
        b ∈ freshMarks s.bitmap (stripeGeometry lp size).stripUnits p}).sum := by
    rw [stripPasses, ← List.map_congr_left fun s _ => newBits_pass s]
    exact (stripLoop_newBits hst).2
  have hmarks : MarksStrips host lp size ↔ newBits lp.bits st.bitmap = lp.interleaveParam.nstrips *
      (divUp size (lp.interleaveParam.nstrips * lp.interleaveParam.chunkSize) *
        (lp.interleaveParam.chunkSize / FAMFS_ALLOC_UNIT)) := by
    rw [hnew]
    rfl
  have hbits : FamfsLockedLog.bits { lp with bitmap := some st.bitmap } = st.bitmap := rfl
  rw [Covered, hlen, hmarks, hbits, ← Nat.mul_assoc, Nat.mul_left_inj hau.ne', Nat.mul_assoc]
  by_cases hwrap : size + FAMFS_ALLOC_UNIT ≤ 2 ^ 64
  · have hround : size + FAMFS_ALLOC_UNIT - 1 < 2 ^ 64 := by omega
    have hint := strip_bytes_int hunit hmul hpos hchunk hlo hhi hround
    have hbytes := strip_bytes hunit hmul hpos hchunk hlo hhi hround
    have hunits : (stripeGeometry lp size).stripUnits * FAMFS_ALLOC_UNIT =
        divUp size (lp.interleaveParam.nstrips * lp.interleaveParam.chunkSize) * lp.interleaveParam.chunkSize →
        (stripeGeometry lp size).stripUnits =
          divUp size (lp.interleaveParam.nstrips * lp.interleaveParam.chunkSize) *
            (lp.interleaveParam.chunkSize / FAMFS_ALLOC_UNIT) := by
      intro heq
      apply Nat.eq_of_mul_eq_mul_right hau
      rw [heq, Nat.mul_assoc, Nat.div_mul_cancel (Nat.dvd_of_mod_eq_zero hmul)]
    constructor
    · rintro ⟨hcover, hcount⟩
      have hfew : lp.interleaveParam.nstrips * (stripeGeometry lp size).stripUnits ≤ 2 ^ 32 := by
        rw [← hcount]
        refine newBits_le _ fun b hclear hset => ?_
        rcases (hend.marked b).1 hset with hold | ⟨s, -, p, -, htouch, -⟩
        · rw [show muBitmapTest (stripStart host lp).bitmap b = false from hclear] at hold
          exact Bool.noConfusion hold
        · exact htouch.lt
      have hstripes := stripes_fit hlo hpow h2 h1 hint rfl hcover hfew
      have hstrip := strip_fits hlo hpos hchunk hstripes hint hcover
      refine ⟨hwrap, hstripes, hstrip, ?_⟩
      rw [hcount, hunits (hbytes hstripes hstrip)]
    · rintro ⟨-, hstripes, hstrip, hcount⟩
      have heq := hbytes hstripes hstrip
      refine ⟨?_, by rw [hcount, hunits heq]⟩
      calc size ≤ divUp size (lp.interleaveParam.nstrips * lp.interleaveParam.chunkSize) *
            (lp.interleaveParam.nstrips * lp.interleaveParam.chunkSize) :=
            divUp_mul_ge size (Nat.mul_pos hlo hpos)
        _ = lp.interleaveParam.nstrips * ((stripeGeometry lp size).stripUnits * FAMFS_ALLOC_UNIT) := by
            rw [heq]
            ring
  · have hnone := stripUnits_wrapped hunit h2 hwrap
    rw [hnone, Nat.zero_mul, Nat.mul_zero]
    exact iff_of_false (fun hcov => by omega) (fun hno => hwrap hno.1)

end

section

variable {host : AllocHost} {lp : FamfsLockedLog} {size : ℕ}

theorem Takes.marks {g : StripeGeometry} {s : StripState} {p : ℕ} (ht : Takes g s p) :
    {b | ∃ q, Takes g s q ∧ b ∈ freshMarks s.bitmap g.stripUnits q} = freshMarks s.bitmap g.stripUnits p := by
  ext b
  exact ⟨fun ⟨q, hq, hb⟩ => ht.unique hq ▸ hb, fun hb => ⟨p, ht, hb⟩⟩

theorem passMarks_le (hstored : ∀ s ∈ stripPasses host lp size, ∀ p, Takes (stripeGeometry lp size) s p →
      Stored (stripeGeometry lp size) p) {s : StripState} (hs : s ∈ stripPasses host lp size) :
    Set.ncard {b | ∃ p, Takes (stripeGeometry lp size) s p ∧ b ∈ freshMarks s.bitmap (stripeGeometry lp size).stripUnits p} ≤
      (stripeGeometry lp size).stripUnits * (passStrip (stripeGeometry lp size) s).toList.length := by
  cases hstrip : passStrip (stripeGeometry lp size) s with
  | none =>
    have hnone : {b | ∃ p, Takes (stripeGeometry lp size) s p ∧
        b ∈ freshMarks s.bitmap (stripeGeometry lp size).stripUnits p} = ∅ := by
      refine Set.eq_empty_of_forall_notMem ?_
      rintro b ⟨p, ht, -⟩
      rw [passStrip_iff.2 ⟨ht, hstored s hs p ht⟩] at hstrip
      cases hstrip
    rw [hnone, Set.ncard_empty]
    exact Nat.zero_le _
  | some p =>
    have ht := (passStrip_iff.1 hstrip).1
    rw [ht.marks]
    simpa using freshMarks_le s.bitmap _ p

theorem sum_strips {α : Type} (l : List α) (f : α → Option ℕ) (u : ℕ) :
    (l.map fun s => u * (f s).toList.length).sum = u * (l.filterMap f).length := by
  induction l with
  | nil => rfl
  | cons a l ih =>
    rw [List.map_cons, List.sum_cons, ih, List.filterMap_cons]
    cases f a with
    | none => simp
    | some x =>
      simp only [Option.toList_some, List.length_cons, List.length_nil]
      ring

theorem marksStrips_iff (hunits : (stripeGeometry lp size).stripUnits =
      divUp size (lp.interleaveParam.nstrips * lp.interleaveParam.chunkSize) * (lp.interleaveParam.chunkSize / FAMFS_ALLOC_UNIT))
    (hall : ((stripPasses host lp size).filterMap (passStrip (stripeGeometry lp size))).length = lp.interleaveParam.nstrips)
    (hstored : ∀ s ∈ stripPasses host lp size, ∀ p, Takes (stripeGeometry lp size) s p → Stored (stripeGeometry lp size) p) :
    MarksStrips host lp size ↔ ∀ s ∈ stripPasses host lp size, ∀ p, Takes (stripeGeometry lp size) s p →
      (freshMarks s.bitmap (stripeGeometry lp size).stripUnits p).ncard = (stripeGeometry lp size).stripUnits := by
  have hsum := sum_strips (stripPasses host lp size) (passStrip (stripeGeometry lp size)) (stripeGeometry lp size).stripUnits
  rw [hall, Nat.mul_comm, hunits] at hsum
  rw [MarksStrips, ← hsum, ← hunits]
  constructor
  · intro heq s hs p ht
    by_contra hless
    refine absurd heq (List.sum_lt_sum _ _ (fun r hr => passMarks_le hstored hr) ⟨s, hs, ?_⟩).ne
    rw [ht.marks, passStrip_iff.2 ⟨ht, hstored s hs p ht⟩]
    simpa using lt_of_le_of_ne (freshMarks_le s.bitmap _ p) hless
  · intro hfull
    refine congrArg List.sum (List.map_congr_left fun s hs => ?_)
    cases hstrip : passStrip (stripeGeometry lp size) s with
    | none =>
      have hle := passMarks_le hstored hs
      rw [hstrip] at hle
      exact Nat.le_zero.1 hle
    | some p =>
      have ht := (passStrip_iff.1 hstrip).1
      rw [ht.marks, hfull s hs p ht]
      simp

theorem strided_fits {lp' : FamfsLockedLog} {fmap : FamfsLogFmap} (hunit : lp.allocUnit = FAMFS_ALLOC_UNIT)
    (hlo : 1 ≤ lp.interleaveParam.nstrips) (hhi : lp.interleaveParam.nstrips ≤ 16)
    (hchunk : lp.interleaveParam.chunkSize < 2 ^ 64) (hle : lp.interleaveParam.chunkSize ≤ size)
    (hwrap : size + FAMFS_ALLOC_UNIT ≤ 2 ^ 64)
    (hstripes : divUp size (lp.interleaveParam.nstrips * lp.interleaveParam.chunkSize) < 2 ^ 31)
    (hstrip : divUp size (lp.interleaveParam.nstrips * lp.interleaveParam.chunkSize) * lp.interleaveParam.chunkSize < 2 ^ 64)
    (h : famfsFileStridedAlloc host lp size = .ok (0, some fmap, lp')) :
    (StripsFit host lp size → MarksStrips host lp size) ∧
      (lp.nbits ≤ 2 ^ 32 → muBitmapTest lp.bits 0 = true → MarksStrips host lp size → StripsFit host lp size) := by
  obtain ⟨hmul, hpos, -, -⟩ := famfsValidateInterleaveParam_zero (famfsFileStridedAlloc_valid h) hlo
  obtain ⟨st, -, hheads, hend, hall, -, -⟩ := famfsFileStridedAlloc_success hlo hle h
  rw [hunit] at hmul
  have hunits : (stripeGeometry lp size).stripUnits = divUp size (lp.interleaveParam.nstrips * lp.interleaveParam.chunkSize) *
      (lp.interleaveParam.chunkSize / FAMFS_ALLOC_UNIT) := by
    apply Nat.eq_of_mul_eq_mul_right (show 0 < FAMFS_ALLOC_UNIT by decide)
    rw [strip_bytes hunit hmul hpos hchunk hlo hhi (by omega) hstripes hstrip, Nat.mul_assoc,
      Nat.div_mul_cancel (Nat.dvd_of_mod_eq_zero hmul)]
  have hcount : ((stripPasses host lp size).filterMap (passStrip (stripeGeometry lp size))).length =
      lp.interleaveParam.nstrips := by
    rw [← hall, hend.count]
    exact (Nat.zero_add _).symm
  unfold StripsFit
  rw [← hunits]
  constructor
  · intro hfit
    refine (marksStrips_iff hunits hcount fun s hs p ht => (hfit s hs p ht).1).2 fun s hs p ht => ?_
    refine freshMarks_inside (fun b hb => ht.clear hb) ?_
    rw [EndsInside, hheads.bits s hs]
    exact (hfit s hs p ht).2
  · intro h32 hzero hmarks
    have hstored : ∀ s ∈ stripPasses host lp size, ∀ p, Takes (stripeGeometry lp size) s p →
        Stored (stripeGeometry lp size) p := by
      intro s hs p ht
      have hlt : p < 2 ^ 32 := ht.lt.trans_le h32
      have hbytes : p * FAMFS_ALLOC_UNIT < 2 ^ 63 := by
        simp only [FAMFS_ALLOC_UNIT]
        omega
      have hne : p ≠ 0 := by
        rintro rfl
        have hset := hheads.grows s hs 0 hzero
        rw [ht.1.2.clear] at hset
        exact Bool.noConfusion hset
      change 0 < s64 (p * lp.allocUnit)
      rw [hunit, s64_of_lt hbytes]
      exact Int.natCast_pos.2 (Nat.mul_pos (Nat.pos_of_ne_zero hne) (by decide))
    intro s hs p ht
    refine ⟨hstored s hs p ht, ?_⟩
    have hends := endsInside_of_marks (ht.lt.trans_le h32) (hheads.grows s hs 0 hzero)
      ((marksStrips_iff hunits hcount hstored).1 hmarks s hs p ht)
    rw [EndsInside, hheads.bits s hs] at hends
    exact hends

end

/-- A call that succeeds covers the file if nothing overflows and its places fit, in any session with
accepted stripes or none. On a device of at most 2^32 units whose first is taken, as that of the
superblock is, it does so only then. -/
theorem alloc_covered {crc32 : Crc32} {kabi : ℕ} {host : AllocHost} {lp lp1 lp' : FamfsLockedLog} {size : ℕ}
    {fmap : FamfsLogFmap} (hsession : ensureBitmap crc32 lp = .ok lp1) (hunit : lp1.allocUnit = FAMFS_ALLOC_UNIT)
    (hstrips : allocIsInterleaved lp1 = true → 1 ≤ lp1.interleaveParam.nstrips ∧ lp1.interleaveParam.nstrips ≤ 16 ∧
      lp1.interleaveParam.chunkSize < 2 ^ 64)
    (h1 : 1 ≤ size) (h2 : size < 2 ^ 64) (h : famfsFileAlloc crc32 kabi host lp size = .ok (0, some fmap, lp')) :
    (CoversWhen host lp1 size → Covered size lp1.bits lp'.bits fmap) ∧
      (lp1.nbits ≤ 2 ^ 32 → muBitmapTest lp1.bits 0 = true → Covered size lp1.bits lp'.bits fmap → CoversWhen host lp1 size) := by
  rw [famfsFileAlloc] at h
  split_ifs at h with hmem
  · cases h
  · rw [hsession, Runs.ok_bind] at h
    split_ifs at h with hkabi hcont
    · cases h
    · rw [CoversWhen, if_pos hcont, contiguous_covered_iff hunit h1 h2 h]
      exact contiguous_fits hunit
    · obtain ⟨hlo, hhi, hchunk⟩ := hstrips (by simpa using hcont)
      rw [CoversWhen, if_neg hcont]
      by_cases hsmall : size < lp1.interleaveParam.chunkSize
      · rw [if_pos hsmall]
        have hvalid := famfsFileStridedAlloc_valid h
        rw [famfsFileStridedAlloc] at h
        split_ifs at h with hrc
        · exact absurd hvalid hrc
        · have hunit' : FamfsLockedLog.allocUnit { lp1 with curPos := 0 } = FAMFS_ALLOC_UNIT := hunit
          have hcovered := contiguous_covered_iff hunit' h1 h2 h
          rw [show Covered size lp1.bits lp'.bits fmap ↔ _ from hcovered]
          exact contiguous_fits hunit'
      · rw [if_neg hsmall, strided_covered_iff hunit hlo hhi hchunk h1 h2 (not_lt.1 hsmall) h]
        constructor
        · rintro ⟨hwrap, hstripes, hstrip, hfit⟩
          exact ⟨hwrap, hstripes, hstrip, (strided_fits hunit hlo hhi hchunk (not_lt.1 hsmall) hwrap hstripes hstrip h).1 hfit⟩
        · rintro h32 hzero ⟨hwrap, hstripes, hstrip, hmarks⟩
          exact ⟨hwrap, hstripes, hstrip,
            (strided_fits hunit hlo hhi hchunk (not_lt.1 hsmall) hwrap hstripes hstrip h).2 h32 hzero hmarks⟩

/-- One byte more is placed in the unit after the first file, and its bit is set. -/
theorem alloc_covered_second_file :
    ∃ fmap lp', famfsFileAlloc Crc32.update 43 ⟨true, true, id⟩ (addFile freshSession 1) 1 = .ok (0, some fmap, lp') ∧
      fmap.extents = [unitExtent (6, 1)] ∧ Covered 1 (addFile freshSession 1).bits lp'.bits fmap := by
  obtain ⟨bm, hbm⟩ : ∃ bm, (addFile freshSession 1).bitmap = some bm := Option.isSome_iff_exists.mp (by decide +kernel)
  obtain ⟨f, lp', hok, hes⟩ := ok_of_map (f := FamfsLogFmap.extents) [unitExtent (6, 1)]
    (r := famfsFileAlloc Crc32.update 43 ⟨true, true, id⟩ (addFile freshSession 1) 1) (by decide +kernel)
  have hcont : allocIsInterleaved (addFile freshSession 1) = false := by decide +kernel
  refine ⟨f, lp', hok, hes, (alloc_covered (by simp [ensureBitmap, hbm]) (by decide +kernel)
    (fun hset => absurd hset (by rw [hcont]; decide)) (by decide) (by decide) hok).1 ⟨by decide, ?_⟩⟩
  rw [if_pos hcont]
  intro p hp
  have hnbits : (addFile freshSession 1).nbits = 2048 := by decide +kernel
  have hbits : 2048 ≤ (addFile freshSession 1).bits.bits := by decide +kernel
  have hlt : p < 2048 := hnbits ▸ hp.1.1
  rw [show divUp 1 FAMFS_ALLOC_UNIT = 1 by decide]
  exact .inr ⟨by omega, by omega⟩

/-- A size just short of 2^64 is rounded up to nothing: the call succeeds with an empty
extent. -/
theorem huge_file_uncovered :
    ∃ fmap lp', famfsFileAlloc Crc32.update 43 ⟨true, true, id⟩ freshSession (2 ^ 64 - 1) = .ok (0, some fmap, lp') ∧
      fmap.extents = [unitExtent (5, 0)] ∧ totalLen fmap < 2 ^ 64 - 1 := by
  obtain ⟨f, lp', hok, hes⟩ := ok_of_map (f := FamfsLogFmap.extents) [unitExtent (5, 0)]
    (r := famfsFileAlloc Crc32.update 43 ⟨true, true, id⟩ freshSession (2 ^ 64 - 1)) (by decide +kernel)
  refine ⟨f, lp', hok, hes, ?_⟩
  rw [totalLen, hes]
  decide

end Famfs
