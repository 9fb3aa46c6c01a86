import Famfs.Sanity.AllocLayout

/-! Bits of large devices. The size of the buffer goes through an `int`, and the bits of
an allocation are set at an index of 32 bits, while they are tested at one of 64. -/

namespace Famfs

open Machine

variable {dev au nbits : ℕ}

/-- The largest block of memory that `calloc` can return. -/
def PTRDIFF_MAX : ℕ := 2 ^ 63 - 1

/-- The buffer of `famfs_build_bitmap` can be had and has a bit for every unit. -/
def BufferHolds (dev au : ℕ) : Prop :=
  (emptyBitmap (bitmapNbits dev au)).length ≤ PTRDIFF_MAX ∧
    divUp (divUp dev au) 8 ≤ (emptyBitmap (bitmapNbits dev au)).length

/-- The bit that the allocator sets is the one that is tested and that marks of the log
set, and it is the only one that changes. -/
structure OneBit (bitmap : Bitmap) (index : ℕ) : Prop where
  tested : muBitmapTest (mseBitmapSet32 bitmap index) index = true
  marked : muBitmapTest (muBitmapTestAndSet bitmap index).2 index = true
  others : ∀ j, j ≠ index → muBitmapTest (mseBitmapSet32 bitmap index) j = muBitmapTest bitmap j ∧
    muBitmapTest (muBitmapTestAndSet bitmap index).2 j = muBitmapTest bitmap j

def OneBitEach (nbits : ℕ) : Prop := ∀ bitmap : Bitmap, nbits ≤ bitmap.bits → ∀ index < nbits, OneBit bitmap index

theorem oneBit_of_lt {bitmap : Bitmap} {index : ℕ} (h32 : index < 2 ^ 32) (hin : index < bitmap.bits) : OneBit bitmap index := by
  have hset : ∀ j, muBitmapTest (mseBitmapSet32 bitmap index) j = (muBitmapTest bitmap j || decide (j = index ∧ index < bitmap.bits)) := by
    intro j
    rw [mseBitmapSet32, u32_of_lt h32, muBitmapTest_set]
  refine ⟨?_, ?_, ?_⟩
  · simp [hset, hin]
  · simp [muBitmapTest_testAndSet, hin]
  · intro j hj
    simp [hset, muBitmapTest_testAndSet, hj]

theorem oneBitEach_iff : OneBitEach nbits ↔ nbits ≤ 2 ^ 32 := by
  constructor
  · intro hall
    by_contra hlarge
    -- the index 2^32 is cut to zero
    have hbits : nbits ≤ Bitmap.bits (List.replicate (divUp nbits 8) 0) := by
      have := divUp_mul_ge nbits (show 0 < 8 by omega)
      simp only [Bitmap.bits, List.length_replicate]
      omega
    have hone := (hall _ hbits (2 ^ 32) (by omega)).tested
    have hcut : u32 (2 ^ 32) = 0 := by decide
    rw [mseBitmapSet32, hcut, muBitmapTest_set, muBitmapTest_replicate] at hone
    simp at hone
  · intro hle bitmap hbits index hlt
    exact oneBit_of_lt (by omega) (by omega)

theorem emptyBitmap_length (nbits : ℕ) :
    (emptyBitmap nbits).length = u64 ((s32 (nbits + 7) / 8 % 2 ^ 64).toNat + 1) := by
  rw [emptyBitmap, List.length_replicate, muBitmapSize]
  rfl

theorem emptyBitmap_length_of_lt (h : nbits + 7 < 2 ^ 31) : (emptyBitmap nbits).length = divUp nbits 8 + 1 := by
  rw [emptyBitmap_length, s32_of_lt h, u64_of_lt (by omega)]
  simp only [divUp]
  omega

theorem emptyBitmap_length_of_ge (h : 2 ^ 31 ≤ nbits + 7) :
    PTRDIFF_MAX < (emptyBitmap nbits).length ∨ (emptyBitmap nbits).length ≤ 2 ^ 28 ∧ 2 ^ 32 ≤ nbits + 15 := by
  rw [emptyBitmap_length]
  simp only [u64, PTRDIFF_MAX]
  by_cases hneg : u32 (nbits + 7) < 2 ^ 31
  · rw [s32, if_pos hneg]
    simp only [u32] at hneg ⊢
    omega
  · rw [s32, if_neg hneg]
    simp only [u32] at hneg ⊢
    omega

theorem bitmapNbits_of_le (hdev : dev + au ≤ 2 ^ 64) : bitmapNbits dev au = divUp dev au := by
  by_cases hzero : au = 0
  · simp [bitmapNbits, divUp, hzero]
  · rw [bitmapNbits, u64_of_lt (by omega), divUp]

theorem bufferHolds_iff (hunit : UnitAdmitted au) (hdev : dev < 2 ^ 64) : BufferHolds dev au ↔ divUp dev au + 7 < 2 ^ 31 := by
  obtain ⟨hpos, hle⟩ := hunit.bounds
  unfold BufferHolds
  by_cases hwrap : dev + au ≤ 2 ^ 64
  · rw [bitmapNbits_of_le hwrap]
    generalize divUp dev au = n
    constructor
    · rintro ⟨hserved, hroom⟩
      by_contra hlarge
      rcases emptyBitmap_length_of_ge (not_lt.1 hlarge) with hhuge | ⟨hsmall, hn⟩
      · omega
      · have := divUp_mul_ge n (show 0 < 8 by omega)
        omega
    · intro hsmall
      have := emptyBitmap_length_of_lt hsmall
      have : divUp n 8 ≤ 2 ^ 28 := (divUp_le (by omega)).2 (by omega)
      unfold PTRDIFF_MAX
      omega
  · -- the sum wraps, and the bitmap has no bit at all
    have hnone : bitmapNbits dev au = 0 := by
      rw [bitmapNbits, u64]
      exact Nat.div_eq_of_lt (by omega)
    have hmany : 2 ^ 31 ≤ divUp dev au := by
      by_contra hfew
      have := (divUp_le hpos).1 (show divUp dev au ≤ 2 ^ 31 by omega)
      have : 2 ^ 31 * au ≤ 2 ^ 31 * 2 ^ 21 := Nat.mul_le_mul_left _ hle
      omega
    have := emptyBitmap_length_of_lt (show 0 + 7 < 2 ^ 31 by omega)
    have := divUp_mul_ge (divUp dev au) (show 0 < 8 by omega)
    rw [hnone]
    simp only [divUp_zero (show 0 < 8 by omega)] at *
    omega

/-- A device is addressed as it should be if its units are few enough for an `int`. -/
theorem large_device_iff (hunit : UnitAdmitted au) (hdev : dev < 2 ^ 64) :
    (BufferHolds dev au ∧ OneBitEach (divUp dev au)) ↔ divUp dev au + 7 < 2 ^ 31 := by
  rw [bufferHolds_iff hunit hdev, oneBitEach_iff]
  omega

theorem large_device_tebibyte : BufferHolds (2 ^ 40) 4096 ∧ OneBitEach (divUp (2 ^ 40) 4096) :=
  (large_device_iff (.inl rfl) (by norm_num)).2 (by decide)

/-- Sixteen tebibytes in units of 4 KiB: one byte is allocated for 2^32 bits. -/
theorem large_device_one_byte : (emptyBitmap (bitmapNbits (2 ^ 44) 4096)).length = 1 ∧
    divUp (divUp (2 ^ 44) 4096) 8 = 2 ^ 29 ∧ ¬ BufferHolds (2 ^ 44) 4096 := by
  have hone : (emptyBitmap (bitmapNbits (2 ^ 44) 4096)).length = 1 := by
    rw [emptyBitmap_length]
    decide
  have hneeds : divUp (divUp (2 ^ 44) 4096) 8 = 2 ^ 29 := by decide
  refine ⟨hone, hneeds, ?_⟩
  rw [BufferHolds, hone, hneeds]
  norm_num

end Famfs
