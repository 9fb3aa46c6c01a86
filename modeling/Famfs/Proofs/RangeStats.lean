import Famfs.Lib.Fragments
import Famfs.Spec.BitmapStats

/-! The statistics of a range of the bitmap. The size, the free bits and the number of free
fragments are right. Bits in use are counted twice, the largest section is the number of
all free bits, and the smallest is zero. -/

namespace Famfs

open Machine Fragments

variable {s : RangeScan}

variable {bitmap : Bitmap} {start stop : ℕ}

def IsFree (bitmap : Bitmap) (i : ℕ) : Prop := muBitmapTest bitmap i = false

instance (bitmap : Bitmap) : DecidablePred (IsFree bitmap) := fun i => inferInstanceAs (Decidable (muBitmapTest bitmap i = false))

def freeBits (bitmap : Bitmap) (start stop : ℕ) : ℕ := (Finset.filter (IsFree bitmap) (Finset.Ico start stop)).card

def usedBits (bitmap : Bitmap) (start stop : ℕ) : ℕ := (Finset.filter (fun i => ¬ IsFree bitmap i) (Finset.Ico start stop)).card

structure RightStats (bitmap : Bitmap) (start stop : ℕ) (bs : FamfsBitmapStats) : Prop where
  size : bs.size = stop - start ∧ bs.bitsInuse + bs.bitsFree = bs.size
  bitsInuse : bs.bitsInuse = usedBits bitmap start stop
  bitsFree : bs.bitsFree = freeBits bitmap start stop
  fragments : bs.fragmentsFree = (runs (IsFree bitmap) start stop).ncard
  largest : IsLongest (IsFree bitmap) start stop bs.largestFreeSection
  smallest : IsShortest (IsFree bitmap) start stop bs.smallestFreeSection

theorem freeBits_add_usedBits (bitmap : Bitmap) (start stop : ℕ) :
    freeBits bitmap start stop + usedBits bitmap start stop = stop - start := by
  rw [freeBits, usedBits, Finset.card_filter_add_card_filter_not, Nat.card_Ico]

theorem freeBits_succ (bitmap : Bitmap) {start stop : ℕ} (hle : start ≤ stop) :
    freeBits bitmap start (stop + 1) = freeBits bitmap start stop + if IsFree bitmap stop then 1 else 0 :=
  card_filter_succ _ hle

theorem usedBits_succ (bitmap : Bitmap) {start stop : ℕ} (hle : start ≤ stop) :
    usedBits bitmap start (stop + 1) = usedBits bitmap start stop + if ¬ IsFree bitmap stop then 1 else 0 :=
  card_filter_succ _ hle

structure RangeCounted (bitmap : Bitmap) (start stop : ℕ) (s : RangeScan) : Prop where
  bitsInuse : s.bs.bitsInuse = u64 (2 * usedBits bitmap start stop)
  bitsFree : s.bs.bitsFree = freeBits bitmap start stop
  fragments : s.bs.fragmentsFree = (starts (IsFree bitmap) start stop).card
  prev : s.prevBitFree = true ↔ start < stop ∧ IsFree bitmap (stop - 1)
  freeCt : s.freeCt = freeBits bitmap start stop
  smallest : s.bs.smallestFreeSection = 0
  largest : s.bs.largestFreeSection ≤ s.freeCt ∧ (s.prevBitFree = false → s.bs.largestFreeSection = s.freeCt)

theorem RangeScan.finish_eq (s : RangeScan) :
    s.finish.size = s.bs.size ∧ s.finish.bitsInuse = s.bs.bitsInuse ∧ s.finish.bitsFree = s.bs.bitsFree ∧
      s.finish.fragmentsFree = s.bs.fragmentsFree := by
  unfold finish
  split_ifs <;> exact ⟨rfl, rfl, rfl, rfl⟩

theorem RangeCounted.finish (h : RangeCounted bitmap start stop s) :
    s.finish.largestFreeSection = freeBits bitmap start stop ∧ s.finish.smallestFreeSection = 0 := by
  have hlargest := h.largest
  have hsmallest := h.smallest
  rw [← h.freeCt]
  unfold RangeScan.finish
  split_ifs with hprev
  · exact ⟨max_eq_left hlargest.1, by simp [hsmallest]⟩
  · exact ⟨hlargest.2 (by simpa using hprev), hsmallest⟩

theorem rangeCounted_empty (bitmap : Bitmap) (start size : ℕ) :
    RangeCounted bitmap start start ⟨⟨size, 0, 0, 0, 0, 0⟩, false, 0⟩ := by
  constructor <;> simp [usedBits, freeBits, starts, u64]

theorem RangeCounted.turn_used (h : RangeCounted bitmap start stop s) (hle : start ≤ stop)
    (hbit : muBitmapTest bitmap stop = true) : RangeCounted bitmap start (stop + 1) (rangeTurn bitmap s stop) := by
  have hnot : ¬ IsFree bitmap stop := by simp [IsFree, hbit]
  have hfree := freeBits_succ bitmap hle
  have hused := usedBits_succ bitmap hle
  have hstarts := starts_succ (p := IsFree bitmap) hle
  obtain ⟨-, hin, hfr, hfrag⟩ := s.finish_eq
  obtain ⟨hlargest, hsmallest⟩ := h.finish
  rw [if_neg hnot] at hfree
  rw [if_pos hnot] at hused
  rw [if_neg fun hnew => hnot hnew.1] at hstarts
  rw [rangeTurn, if_pos hbit]
  refine ⟨?_, ?_, ?_, ?_, ?_, hsmallest, ?_⟩
  · rw [hused]
    simp only [hin, h.bitsInuse, u64]
    omega
  · rw [hfree]
    exact hfr.trans h.bitsFree
  · rw [hstarts]
    exact hfrag.trans h.fragments
  · simp [hnot]
  · rw [hfree]
    exact h.freeCt
  · have heq := hlargest.trans h.freeCt.symm
    exact ⟨heq.le, fun _ => heq⟩

theorem RangeCounted.starts_free (h : RangeCounted bitmap start stop s) (hle : start ≤ stop)
    (hclear : IsFree bitmap stop) :
    (starts (IsFree bitmap) start (stop + 1)).card =
      (starts (IsFree bitmap) start stop).card + if s.prevBitFree = false then 1 else 0 := by
  have hnew : (IsFree bitmap stop ∧ (stop = start ∨ ¬ IsFree bitmap (stop - 1))) ↔ s.prevBitFree = false := by
    rw [← Bool.not_eq_true, h.prev, not_and_or]
    constructor
    · rintro ⟨-, hat | hprev⟩
      · exact .inl (by omega)
      · exact .inr hprev
    · rintro (hat | hprev)
      · exact ⟨hclear, .inl (by omega)⟩
      · exact ⟨hclear, .inr hprev⟩
  rw [starts_succ hle]
  simp only [hnew]

theorem RangeCounted.turn_free (h : RangeCounted bitmap start stop s) (hle : start ≤ stop)
    (hstop : stop + 1 < 2 ^ 64) (hclear : IsFree bitmap stop) :
    RangeCounted bitmap start (stop + 1) (rangeTurn bitmap s stop) := by
  have hfree := freeBits_succ bitmap hle
  have hused := usedBits_succ bitmap hle
  rw [if_pos hclear] at hfree
  rw [if_neg (not_not.2 hclear)] at hused
  have hsum := freeBits_add_usedBits bitmap start stop
  have hfits : u64 (freeBits bitmap start stop + 1) = freeBits bitmap start stop + 1 := u64_of_lt (by omega)
  have hfew : (starts (IsFree bitmap) start stop).card ≤ freeBits bitmap start stop :=
    Finset.card_le_card (Finset.monotone_filter_right _ fun _ _ hs => hs.1)
  have hstarts := h.starts_free hle hclear
  obtain ⟨bs, hbs, hin, hfr, hlarge, hsmall, hfrag⟩ : ∃ bs,
      (if s.prevBitFree then s.bs else { s.bs with fragmentsFree := u64 (s.bs.fragmentsFree + 1) }) = bs ∧
      bs.bitsInuse = s.bs.bitsInuse ∧ bs.bitsFree = s.bs.bitsFree ∧ bs.largestFreeSection = s.bs.largestFreeSection ∧
      bs.smallestFreeSection = s.bs.smallestFreeSection ∧ bs.fragmentsFree = (starts (IsFree bitmap) start (stop + 1)).card := by
    cases hprev : s.prevBitFree with
    | true => exact ⟨_, rfl, rfl, rfl, rfl, rfl, by rw [hstarts]; simpa [hprev] using h.fragments⟩
    | false =>
      refine ⟨_, rfl, rfl, rfl, rfl, rfl, ?_⟩
      simp only [Bool.false_eq_true, if_false, h.fragments, hstarts, hprev, if_true]
      exact u64_of_lt (by omega)
  have hlargest := h.largest.1
  have hcount := h.freeCt
  rw [rangeTurn, if_neg (by simpa [IsFree] using hclear), hbs]
  refine ⟨?_, ?_, hfrag, ?_, ?_, hsmall.trans h.smallest, ?_, fun hfalse => Bool.noConfusion hfalse⟩
  · simpa [hused, hin] using h.bitsInuse
  · simp [hfr, h.bitsFree, hfits, hfree]
  · simpa [hclear] using hle
  · simp [hcount, hfits, hfree]
  · simp only [hlarge, hcount, hfits]
    omega

theorem RangeCounted.turn (h : RangeCounted bitmap start stop s) (hle : start ≤ stop) (hstop : stop + 1 < 2 ^ 64) :
    RangeCounted bitmap start (stop + 1) (rangeTurn bitmap s stop) := by
  by_cases hbit : muBitmapTest bitmap stop = true
  · exact h.turn_used hle hbit
  · exact h.turn_free hle hstop (by simpa [IsFree] using hbit)

theorem rangeLoop_counted (bitmap : Bitmap) (hle : start ≤ stop) (hstop : stop < 2 ^ 64) :
    RangeCounted bitmap start stop (rangeLoop bitmap start stop) := by
  unfold rangeLoop
  generalize sub64 stop start = size
  induction stop, hle using Nat.le_induction with
  | base =>
    rw [Nat.sub_self]
    exact rangeCounted_empty bitmap start size
  | succ stop hle ih =>
    rw [Nat.succ_sub hle, List.range'_1_concat, List.foldl_append, Nat.add_sub_cancel' hle]
    exact (ih (by omega)).turn hle hstop

theorem rangeLoop_size (bitmap : Bitmap) (start stop : ℕ) : (rangeLoop bitmap start stop).bs.size = sub64 stop start := by
  have hkeep : ∀ (l : List ℕ) (s : RangeScan), (l.foldl (rangeTurn bitmap) s).bs.size = s.bs.size := by
    intro l
    induction l with
    | nil => exact fun _ => rfl
    | cons i l ih =>
      intro s
      rw [List.foldl_cons, ih]
      unfold rangeTurn
      split_ifs
      · exact s.finish_eq.1
      · rfl
      · rfl
  exact hkeep _ _

theorem muBitmapRangeStats_eq (bitmap : Bitmap) (hle : start ≤ stop) (hstop : stop < 2 ^ 64) :
    muBitmapRangeStats bitmap start stop =
      ⟨stop - start, u64 (2 * usedBits bitmap start stop), freeBits bitmap start stop,
        (runs (IsFree bitmap) start stop).ncard, freeBits bitmap start stop, 0⟩ := by
  have hcounted := rangeLoop_counted bitmap hle hstop
  obtain ⟨hsize, hin, hfr, hfrag⟩ := (rangeLoop bitmap start stop).finish_eq
  obtain ⟨hlargest, hsmallest⟩ := hcounted.finish
  rw [rangeLoop_size, sub64_of_le hstop hle] at hsize
  rw [hcounted.bitsInuse] at hin
  rw [hcounted.bitsFree] at hfr
  rw [hcounted.fragments, ← runs_ncard] at hfrag
  exact FamfsBitmapStats.ext hsize hin hfr hfrag hlargest hsmallest

/-- Of the six numbers three are always right; the statistics as a whole are right for the
empty range only. -/
theorem range_stats_iff (bitmap : Bitmap) (hle : start ≤ stop) (hstop : stop < 2 ^ 64) :
    ((muBitmapRangeStats bitmap start stop).size = stop - start ∧
      (muBitmapRangeStats bitmap start stop).bitsFree = freeBits bitmap start stop ∧
      (muBitmapRangeStats bitmap start stop).fragmentsFree = (runs (IsFree bitmap) start stop).ncard) ∧
    ((muBitmapRangeStats bitmap start stop).bitsInuse = usedBits bitmap start stop ↔ usedBits bitmap start stop = 0) ∧
    (IsLongest (IsFree bitmap) start stop (muBitmapRangeStats bitmap start stop).largestFreeSection ↔
      (runs (IsFree bitmap) start stop).ncard ≤ 1) ∧
    (IsShortest (IsFree bitmap) start stop (muBitmapRangeStats bitmap start stop).smallestFreeSection ↔
      freeBits bitmap start stop = 0) ∧
    (RightStats bitmap start stop (muBitmapRangeStats bitmap start stop) ↔ start = stop) := by
  have hsum := freeBits_add_usedBits bitmap start stop
  rw [muBitmapRangeStats_eq bitmap hle hstop]
  have htwice : u64 (2 * usedBits bitmap start stop) = usedBits bitmap start stop ↔ usedBits bitmap start stop = 0 := by
    simp only [u64]
    omega
  refine ⟨⟨rfl, rfl, rfl⟩, htwice, isLongest_card_iff, isShortest_zero_iff, ?_⟩
  constructor
  · intro hright
    have hnone := htwice.1 hright.bitsInuse
    have hfull := isShortest_zero_iff.1 hright.smallest
    rw [freeBits] at hsum
    omega
  · rintro rfl
    have hfree : freeBits bitmap start start = 0 := by omega
    have hused : usedBits bitmap start start = 0 := by omega
    have hruns : (runs (IsFree bitmap) start start).ncard ≤ 1 := by
      rw [runs_ncard]
      simp [starts]
    exact ⟨by simp [hfree, hused, u64], htwice.2 hused, rfl, rfl, isLongest_card_iff.2 hruns, isShortest_zero_iff.2 hfree⟩

theorem range_stats_iff_byte : (muBitmapRangeStats [0x0d#8] 0 8).fragmentsFree = (runs (IsFree [0x0d#8]) 0 8).ncard ∧
    RightStats [0x0d#8] 4 4 (muBitmapRangeStats [0x0d#8] 4 4) :=
  ⟨(range_stats_iff [0x0d#8] (Nat.zero_le 8) (by decide)).1.2.2, (range_stats_iff [0x0d#8] le_rfl (by decide)).2.2.2.2.2 rfl⟩

/-- Three bits in use, and free fragments of one and of four bits. -/
theorem range_stats_byte : muBitmapRangeStats [0x0d#8] 0 8 = ⟨8, 6, 5, 2, 5, 0⟩ ∧ usedBits [0x0d#8] 0 8 = 3 ∧
    freeBits [0x0d#8] 0 8 = 5 ∧ ¬ RightStats [0x0d#8] 0 8 (muBitmapRangeStats [0x0d#8] 0 8) := by
  have hstats : muBitmapRangeStats [0x0d#8] 0 8 = ⟨8, 6, 5, 2, 5, 0⟩ := by decide
  have hused : usedBits [0x0d#8] 0 8 = 3 := by decide
  refine ⟨hstats, hused, by decide, fun hright => ?_⟩
  have htwice := hright.bitsInuse
  rw [hstats, hused] at htwice
  exact absurd htwice (by decide)

end Famfs
