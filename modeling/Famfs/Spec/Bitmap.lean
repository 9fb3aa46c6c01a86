import Famfs.Lib.Machine
import Famfs.Lib.Intervals

/-! The allocation bitmap of `bitmap.h`: one bit for each allocation unit, packed
eight to a byte. A byte outside the buffer reads as zero and a store to it is
lost, so a bit past the end of the bitmap reads as clear. -/

namespace Famfs

open Machine

/-- The `u8 *` buffer. -/
abbrev Bitmap := List (BitVec 8)

/-- The argument is a C `int`, and so is the shifted sum. -/
def muBitmapSize (numBlocks : ℕ) : ℤ := s32 (numBlocks + 8 - 1) / 8

def bitmapByte (bitmap : Bitmap) (byteNum : ℕ) : BitVec 8 := bitmap.getD byteNum 0

def muBitmapTest (bitmap : Bitmap) (index : ℕ) : Bool :=
  bitmapByte bitmap (index / 8) &&& (1#8 <<< (index % 8)) != 0#8

def muBitmapSet (bitmap : Bitmap) (index : ℕ) : Bitmap :=
  bitmap.set (index / 8) (bitmapByte bitmap (index / 8) ||| (1#8 <<< (index % 8)))

/-- `true` when the bit was clear and is now set. -/
def muBitmapTestAndSet (bitmap : Bitmap) (index : ℕ) : Bool × Bitmap :=
  if muBitmapTest bitmap index then (false, bitmap) else (true, muBitmapSet bitmap index)

/-- `true` when the bit was set and is now clear. -/
def muBitmapTestAndClear (bitmap : Bitmap) (index : ℕ) : Bool × Bitmap :=
  if muBitmapTest bitmap index then
    (true, bitmap.set (index / 8)
      (bitmapByte bitmap (index / 8) &&& (0xff#8 ^^^ (1#8 <<< (index % 8)))))
  else (false, bitmap)

/-- The index is a `u32`: a larger one is cut to its low half. -/
def mseBitmapSet32 (bitmap : Bitmap) (index : ℕ) : Bitmap := muBitmapSet bitmap (u32 index)

theorem muBitmapTest_eq (bitmap : Bitmap) (index : ℕ) :
    muBitmapTest bitmap index = (bitmapByte bitmap (index / 8)).getLsbD (index % 8) := by
  have hk : index % 8 < 8 := Nat.mod_lt _ (by norm_num)
  unfold muBitmapTest
  rw [← BitVec.twoPow_eq, BitVec.and_twoPow]
  cases h : (bitmapByte bitmap (index / 8)).getLsbD (index % 8) with
  | false => simp
  | true =>
    simp only [ite_true, bne_iff_ne, ne_eq]
    intro h0
    have := congrArg (fun x : BitVec 8 => x.getLsbD (index % 8)) h0
    simp [hk] at this

/-- Bits of the buffer; every other index is past its end. -/
def Bitmap.bits (bitmap : Bitmap) : ℕ := 8 * bitmap.length

theorem muBitmapTest_past {bitmap : Bitmap} {index : ℕ} (h : bitmap.bits ≤ index) :
    muBitmapTest bitmap index = false := by
  have hlen : bitmap.length ≤ index / 8 := by unfold Bitmap.bits at h; omega
  rw [muBitmapTest_eq, bitmapByte, List.getD_eq_getElem?_getD, List.getElem?_eq_none hlen]
  simp

theorem bitmapByte_set (bitmap : Bitmap) (n m : ℕ) (v : BitVec 8) :
    bitmapByte (bitmap.set n v) m =
      if n = m ∧ n < bitmap.length then v else bitmapByte bitmap m := by
  unfold bitmapByte
  simp only [List.getD_eq_getElem?_getD, List.getElem?_set]
  by_cases hnm : n = m
  · subst hnm
    by_cases hn : n < bitmap.length
    · simp [hn]
    · simp [hn]
  · simp [hnm]

@[simp] theorem muBitmapSet_bits (bitmap : Bitmap) (j : ℕ) :
    (muBitmapSet bitmap j).bits = bitmap.bits := by
  simp [muBitmapSet, Bitmap.bits]

theorem muBitmapTest_set (bitmap : Bitmap) (j i : ℕ) :
    muBitmapTest (muBitmapSet bitmap j) i =
      (muBitmapTest bitmap i || decide (i = j ∧ j < bitmap.bits)) := by
  rw [muBitmapTest_eq, muBitmapTest_eq, muBitmapSet, bitmapByte_set]
  have hi : i % 8 < 8 := Nat.mod_lt _ (by norm_num)
  have hlen : j < bitmap.bits ↔ j / 8 < bitmap.length := by unfold Bitmap.bits; omega
  by_cases hb : j / 8 = i / 8 ∧ j / 8 < bitmap.length
  · rw [if_pos hb, BitVec.getLsbD_or, hb.1, ← BitVec.twoPow_eq, BitVec.getLsbD_twoPow]
    congr 1
    have hj : j % 8 < 8 := Nat.mod_lt _ (by norm_num)
    have hmod : j % 8 = i % 8 ↔ i = j := by omega
    simp [hj, hmod, hlen, hb.2]
  · rw [if_neg hb]
    have : ¬ (i = j ∧ j < bitmap.bits) := by
      rintro ⟨rfl, h⟩
      exact hb ⟨rfl, hlen.mp h⟩
    simp [this]

theorem muBitmapTestAndSet_fst (bitmap : Bitmap) (j : ℕ) :
    (muBitmapTestAndSet bitmap j).1 = !muBitmapTest bitmap j := by
  unfold muBitmapTestAndSet
  cases muBitmapTest bitmap j <;> rfl

theorem muBitmapTest_testAndSet (bitmap : Bitmap) (j i : ℕ) :
    muBitmapTest (muBitmapTestAndSet bitmap j).2 i =
      (muBitmapTest bitmap i || decide (i = j ∧ j < bitmap.bits)) := by
  unfold muBitmapTestAndSet
  cases h : muBitmapTest bitmap j with
  | true =>
    simp only [ite_true]
    by_cases hi : i = j
    · simp [hi, h]
    · simp [hi]
  | false => simpa using muBitmapTest_set bitmap j i

@[simp] theorem muBitmapTestAndSet_bits (bitmap : Bitmap) (j : ℕ) :
    (muBitmapTestAndSet bitmap j).2.bits = bitmap.bits := by
  unfold muBitmapTestAndSet
  split <;> simp

theorem muBitmapTestAndClear_fst (bitmap : Bitmap) (j : ℕ) :
    (muBitmapTestAndClear bitmap j).1 = muBitmapTest bitmap j := by
  unfold muBitmapTestAndClear
  cases muBitmapTest bitmap j <;> rfl

@[simp] theorem muBitmapTestAndClear_bits (bitmap : Bitmap) (j : ℕ) :
    (muBitmapTestAndClear bitmap j).2.bits = bitmap.bits := by
  unfold muBitmapTestAndClear
  split <;> simp [Bitmap.bits]

theorem muBitmapTest_testAndClear (bitmap : Bitmap) (j i : ℕ) :
    muBitmapTest (muBitmapTestAndClear bitmap j).2 i =
      (muBitmapTest bitmap i && !decide (i = j)) := by
  unfold muBitmapTestAndClear
  cases h : muBitmapTest bitmap j with
  | false =>
    simp only [Bool.false_eq_true, ite_false]
    by_cases hi : i = j
    · simp [hi, h]
    · simp [hi]
  | true =>
    simp only [ite_true]
    have hin : j / 8 < bitmap.length := by
      by_contra hn
      rw [muBitmapTest_past (by unfold Bitmap.bits; omega)] at h
      exact Bool.false_ne_true h
    have hi : i % 8 < 8 := Nat.mod_lt _ (by norm_num)
    rw [muBitmapTest_eq, muBitmapTest_eq, bitmapByte_set]
    by_cases hb : j / 8 = i / 8
    · rw [if_pos ⟨hb, hin⟩, BitVec.getLsbD_and, hb, BitVec.getLsbD_xor, ← BitVec.twoPow_eq,
        BitVec.getLsbD_twoPow]
      have hff : (0xff#8).getLsbD (i % 8) = true := by
        have : ∀ k < 8, (0xff#8).getLsbD k = true := by decide
        exact this _ hi
      have hj : j % 8 < 8 := Nat.mod_lt _ (by norm_num)
      have hmod : j % 8 = i % 8 ↔ i = j := by omega
      rw [hff]
      simp [hj, hmod]
    · rw [if_neg (fun hc => hb hc.1)]
      have : i ≠ j := by rintro rfl; exact hb rfl
      simp [this]

end Famfs
