import Famfs.Spec.Bitmap

/-! `mu_bitmap_range_stats` of `famfs_alloc.c`: one pass over a range of the bitmap. -/

namespace Famfs

open Machine

@[ext]
structure FamfsBitmapStats where
  size : ℕ
  bitsInuse : ℕ
  bitsFree : ℕ
  fragmentsFree : ℕ
  largestFreeSection : ℕ
  smallestFreeSection : ℕ
deriving DecidableEq

/-- The record with `prev_bit_free` and `free_ct`. -/
structure RangeScan where
  bs : FamfsBitmapStats
  prevBitFree : Bool
  freeCt : ℕ
deriving DecidableEq

/-- A free fragment has ended. -/
def RangeScan.finish (s : RangeScan) : FamfsBitmapStats :=
  if s.prevBitFree then
    { s.bs with
      smallestFreeSection := min s.freeCt s.bs.smallestFreeSection
      largestFreeSection := max s.freeCt s.bs.largestFreeSection }
  else s.bs

/-- One turn of the loop. A bit that is set is counted twice, and `free_ct` is not reset. -/
def rangeTurn (bitmap : Bitmap) (s : RangeScan) (i : ℕ) : RangeScan :=
  if muBitmapTest bitmap i then
    let bs := s.finish
    let bs := { bs with bitsInuse := u64 (bs.bitsInuse + 1) }
    let bs := { bs with bitsInuse := u64 (bs.bitsInuse + 1) }
    ⟨bs, false, s.freeCt⟩
  else
    let bs := if s.prevBitFree then s.bs else { s.bs with fragmentsFree := u64 (s.bs.fragmentsFree + 1) }
    ⟨{ bs with bitsFree := u64 (bs.bitsFree + 1) }, true, u64 (s.freeCt + 1)⟩

def rangeLoop (bitmap : Bitmap) (start stop : ℕ) : RangeScan :=
  (List.range' start (stop - start)).foldl (rangeTurn bitmap) ⟨⟨sub64 stop start, 0, 0, 0, 0, 0⟩, false, 0⟩

def muBitmapRangeStats (bitmap : Bitmap) (start stop : ℕ) : FamfsBitmapStats := (rangeLoop bitmap start stop).finish

end Famfs
