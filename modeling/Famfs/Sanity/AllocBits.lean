import Famfs.Spec.Alloc

/-! What each loop of the allocator does to the bits of the bitmap. -/

namespace Famfs

open Machine Intervals

theorem allClear_iff (bitmap : Bitmap) (n j : ℕ) :
    allClear bitmap n j = true ↔ ∀ b, Seg.Has (j, n) b → muBitmapTest bitmap b = false := by
  induction n generalizing j with
  | zero => simp [allClear, Seg.not_has_zero]
  | succ n ih =>
    simp only [allClear, Bool.and_eq_true, Bool.not_eq_true', ih, Seg.has_succ]
    constructor
    · rintro ⟨h0, h1⟩ b (rfl | hb)
      · exact h0
      · exact h1 b hb
    · intro h
      exact ⟨h j (Or.inl rfl), fun b hb => h b (Or.inr hb)⟩

@[simp] theorem setRun_bits (bitmap : Bitmap) (n j : ℕ) : (setRun bitmap n j).bits = bitmap.bits := by
  induction n generalizing bitmap j with
  | zero => rfl
  | succ n ih => simp [setRun, ih, mseBitmapSet32]

theorem muBitmapTest_setRun (bitmap : Bitmap) (n j b : ℕ) (h32 : j + n ≤ 2 ^ 32) :
    muBitmapTest (setRun bitmap n j) b =
      (muBitmapTest bitmap b || decide (Seg.Has (j, n) b ∧ b < bitmap.bits)) := by
  induction n generalizing bitmap j with
  | zero => simp [setRun, Seg.not_has_zero]
  | succ n ih =>
    simp only [setRun, mseBitmapSet32]
    rw [ih _ _ (by omega), u32_of_lt (by omega), muBitmapTest_set, muBitmapSet_bits, Bool.or_assoc,
      Seg.decide_has_succ]

/-- Where a search from `i` may stop: the bit is clear, so is the whole run, and
the room left was judged enough at every clear bit on the way. -/
structure Selectable (bitmap : Bitmap) (n startIdx rangeNbits i p : ℕ) : Prop where
  from_le : i ≤ p
  clear : muBitmapTest bitmap p = false
  run : ∀ b, Seg.Has (p, n) b → muBitmapTest bitmap b = false
  room : ∀ q, i ≤ q → q ≤ p → muBitmapTest bitmap q = false → n ≤ sub64 (startIdx + rangeNbits) q

theorem selectable_succ {bitmap : Bitmap} {n s r i p : ℕ}
    (hskip : muBitmapTest bitmap i = true ∨ n ≤ sub64 (s + r) i)
    (h : Selectable bitmap n s r (i + 1) p) : Selectable bitmap n s r i p where
  from_le := by have := h.from_le; omega
  clear := h.clear
  run := h.run
  room := by
    intro q hq hqp hc
    rcases Nat.eq_or_lt_of_le hq with rfl | hlt
    · rcases hskip with ht | hle
      · rw [hc] at ht; exact absurd ht Bool.false_ne_true
      · exact hle
    · exact h.room q hlt hqp hc

theorem bitmapScan_some {bitmap : Bitmap} {n s r fuel i p : ℕ}
    (h : bitmapScan bitmap n s r fuel i = some p) :
    Selectable bitmap n s r i p ∧ p < i + fuel ∧ ∀ q, Selectable bitmap n s r i q → p ≤ q := by
  induction fuel generalizing i with
  | zero => cases h
  | succ fuel ih =>
    simp only [bitmapScan] at h
    split_ifs at h with h1 h2 h3
    · obtain ⟨hsel, hlt, hmin⟩ := ih h
      refine ⟨selectable_succ (Or.inl h1) hsel, by omega, fun q hq => hmin q ?_⟩
      have hne : q ≠ i := by
        rintro rfl
        have := hq.clear
        rw [h1] at this
        exact Bool.false_ne_true this.symm
      have hle := hq.from_le
      exact ⟨by omega, hq.clear, hq.run, fun x hx => hq.room x (by omega)⟩
    · cases h
      have hc : muBitmapTest bitmap p = false := by simpa using h1
      refine ⟨⟨le_rfl, hc, (allClear_iff _ _ _).mp h3, ?_⟩, by omega, fun q hq => hq.from_le⟩
      intro q hq hqp _
      rw [Nat.le_antisymm hqp hq]
      omega
    · obtain ⟨hsel, hlt, hmin⟩ := ih h
      refine ⟨selectable_succ (Or.inr (by omega)) hsel, by omega, fun q hq => hmin q ?_⟩
      have hne : q ≠ i := by
        rintro rfl
        exact h3 ((allClear_iff _ _ _).mpr hq.run)
      have hle := hq.from_le
      exact ⟨by omega, hq.clear, hq.run, fun x hx => hq.room x (by omega)⟩

theorem bitmapScan_none {bitmap : Bitmap} {n s r fuel i : ℕ}
    (h : bitmapScan bitmap n s r fuel i = none) :
    ∀ p, p < i + fuel → ¬ Selectable bitmap n s r i p := by
  induction fuel generalizing i with
  | zero =>
    intro p hp hsel
    have := hsel.from_le
    omega
  | succ fuel ih =>
    intro p hp hsel
    simp only [bitmapScan] at h
    have hle := hsel.from_le
    split_ifs at h with h1 h2 h3
    · have hne : p ≠ i := by
        rintro rfl
        have := hsel.clear
        rw [h1] at this
        exact Bool.false_ne_true this.symm
      exact ih h p (by omega) ⟨by omega, hsel.clear, hsel.run, fun x hx => hsel.room x (by omega)⟩
    · have := hsel.room i le_rfl hle (by simpa using h1)
      omega
    · have hne : p ≠ i := by
        rintro rfl
        exact h3 ((allClear_iff _ _ _).mpr hsel.run)
      exact ih h p (by omega) ⟨by omega, hsel.clear, hsel.run, fun x hx => hsel.room x (by omega)⟩

/-- Bits that an allocation of `allocSize` bytes takes. -/
def allocBits (au allocSize : ℕ) : ℕ := u64 (allocSize + au - 1) / au

/-- Bits of the range that a search is told to stay in. -/
def rangeBits (nbits au rangeSize : ℕ) : ℕ :=
  if rangeSize ≠ 0 then u64 (rangeSize + au - 1) / au else nbits

/-- The places below `nbits` that a search from byte `pos` may stop at. -/
def Candidate (bitmap : Bitmap) (nbits au allocSize pos rangeSize p : ℕ) : Prop :=
  p < nbits ∧
    Selectable bitmap (allocBits au allocSize) (pos / au) (rangeBits nbits au rangeSize) (pos / au) p

theorem bitmapAllocContiguous_cases (bitmap : Bitmap) (nbits au allocSize pos rangeSize : ℕ) :
    ((∀ p, ¬ Candidate bitmap nbits au allocSize pos rangeSize p) ∧
      bitmapAllocContiguous bitmap nbits au allocSize pos rangeSize = (-1, bitmap, pos)) ∨
    ∃ p, Candidate bitmap nbits au allocSize pos rangeSize p ∧
      (∀ q, Candidate bitmap nbits au allocSize pos rangeSize q → p ≤ q) ∧
      bitmapAllocContiguous bitmap nbits au allocSize pos rangeSize =
        (s64 (p * au), setRun bitmap (allocBits au allocSize) p,
          u64 ((p + allocBits au allocSize) * au)) := by
  simp only [bitmapAllocContiguous]
  split
  · rename_i hscan
    refine Or.inl ⟨fun p hp => ?_, rfl⟩
    have hle := hp.2.from_le
    have hlt := hp.1
    exact bitmapScan_none hscan p (by omega) hp.2
  · rename_i p hscan
    obtain ⟨hsel, hfuel, hmin⟩ := bitmapScan_some hscan
    have hle := hsel.from_le
    exact Or.inr ⟨p, ⟨by omega, hsel⟩, fun q hq => hmin q hq.2, rfl⟩

theorem freeRun_ok {bitmap bitmap' : Bitmap} {n i : ℕ} (h : freeRun bitmap n i = .ok bitmap') :
    bitmap'.bits = bitmap.bits ∧
      ∀ b, muBitmapTest bitmap' b = (muBitmapTest bitmap b && !decide (Seg.Has (i, n) b)) := by
  induction n generalizing bitmap i with
  | zero =>
    cases h
    simp [Seg.not_has_zero]
  | succ n ih =>
    simp only [freeRun] at h
    split_ifs at h with h1
    obtain ⟨hbits, htest⟩ := ih h
    refine ⟨by rw [hbits]; simp, fun b => ?_⟩
    rw [htest, muBitmapTest_testAndClear, Bool.and_assoc]
    congr 1
    rw [Bool.eq_iff_iff]
    simp only [Bool.and_eq_true, Bool.not_eq_true', decide_eq_false_iff_not, Seg.has_succ, not_or]

theorem freeRun_ok_iff (bitmap : Bitmap) (n i : ℕ) :
    (∃ bitmap', freeRun bitmap n i = .ok bitmap') ↔ ∀ b, Seg.Has (i, n) b → muBitmapTest bitmap b = true := by
  induction n generalizing bitmap i with
  | zero => simp [freeRun, Seg.not_has_zero]
  | succ n ih =>
    simp only [freeRun, muBitmapTestAndClear_fst, Seg.has_succ]
    cases hbit : muBitmapTest bitmap i with
    | false =>
      simp only [Bool.false_eq_true, if_false, reduceCtorEq, exists_false, false_iff]
      intro hall
      rw [hall i (Or.inl rfl)] at hbit
      exact Bool.noConfusion hbit
    | true =>
      simp only [if_true, ih]
      constructor
      · rintro hall b (rfl | hb)
        · exact hbit
        · have := hall b hb
          rw [muBitmapTest_testAndClear, Bool.and_eq_true] at this
          exact this.1
      · intro hall b hb
        rw [muBitmapTest_testAndClear, hall b (Or.inr hb)]
        have hne : b ≠ i := by
          have := hb.1
          simp only at this
          omega
        simpa using hne

@[simp] theorem setExtentLoop_bits (au np k : ℕ) (m : ExtentMarks) :
    (setExtentLoop au np k m).bitmap.bits = m.bitmap.bits := by
  induction np generalizing k m with
  | zero => rfl
  | succ np ih =>
    simp only [setExtentLoop, ih]
    split <;> simp

theorem muBitmapTest_setExtentLoop (au np k b : ℕ) (m : ExtentMarks) :
    muBitmapTest (setExtentLoop au np k m).bitmap b =
      (muBitmapTest m.bitmap b || decide (Seg.Has (k, np) b ∧ b < m.bitmap.bits)) := by
  induction np generalizing k m with
  | zero => simp [setExtentLoop, Seg.not_has_zero]
  | succ np ih =>
    simp only [setExtentLoop]
    set m' : ExtentMarks :=
      if (muBitmapTestAndSet m.bitmap k).1 then
        { m with bitmap := (muBitmapTestAndSet m.bitmap k).2, allocSum := u64 (m.allocSum + au) }
      else { m with bitmap := (muBitmapTestAndSet m.bitmap k).2, errors := m.errors + 1 } with hm'
    have hb : m'.bitmap = (muBitmapTestAndSet m.bitmap k).2 := by rw [hm']; split <;> rfl
    rw [ih, hb, muBitmapTest_testAndSet, muBitmapTestAndSet_bits, Bool.or_assoc,
      Seg.decide_has_succ]

theorem setExtentLoop_errors (au np k : ℕ) (m : ExtentMarks) :
    (setExtentLoop au np k m).errors =
      m.errors + (List.range' k np).countP (muBitmapTest m.bitmap) := by
  induction np generalizing k m with
  | zero => simp [setExtentLoop]
  | succ np ih =>
    simp only [setExtentLoop, ih, List.range'_succ, List.countP_cons]
    have hrest : ∀ bm : Bitmap, bm = (muBitmapTestAndSet m.bitmap k).2 →
        (List.range' (k + 1) np).countP (muBitmapTest bm) =
          (List.range' (k + 1) np).countP (muBitmapTest m.bitmap) := by
      rintro bm rfl
      refine List.countP_congr fun b hb => ?_
      rw [muBitmapTest_testAndSet]
      have : b ≠ k := by
        have := List.mem_range'_1.mp hb
        omega
      simp [this]
    rw [muBitmapTestAndSet_fst]
    cases h : muBitmapTest m.bitmap k with
    | true => simp [hrest _ rfl]; omega
    | false => simp [hrest _ rfl]

theorem setExtentLoop_errors_clear {au np k : ℕ} {m : ExtentMarks}
    (h : ∀ b, Seg.Has (k, np) b → muBitmapTest m.bitmap b = false) :
    (setExtentLoop au np k m).errors = m.errors := by
  rw [setExtentLoop_errors, List.countP_eq_zero.mpr, Nat.add_zero]
  intro b hb
  rw [h b ⟨(List.mem_range'_1.mp hb).1, (List.mem_range'_1.mp hb).2⟩]
  exact Bool.false_ne_true

/-- The units that `famfs_check_super` lets through. -/
def UnitAdmitted (au : ℕ) : Prop := au = 4096 ∨ au = FAMFS_ALLOC_UNIT

theorem UnitAdmitted.bounds {au : ℕ} (h : UnitAdmitted au) : 0 < au ∧ au ≤ 2 ^ 21 := by
  rcases h with rfl | rfl <;> decide

theorem UnitAdmitted.pow {au : ℕ} (h : UnitAdmitted au) : ∃ k, au = 2 ^ k := by
  rcases h with rfl | rfl
  · exact ⟨12, rfl⟩
  · exact ⟨21, rfl⟩

theorem UnitAdmitted.mask {au : ℕ} (h : UnitAdmitted au) (n : ℕ) : n &&& (au - 1) = n % au := by
  obtain ⟨k, rfl⟩ := h.pow
  exact Nat.and_two_pow_sub_one_eq_mod n k

theorem UnitAdmitted.not_misaligned {au n : ℕ} (h : UnitAdmitted au) (hn : n % au = 0) : ¬ n &&& (au - 1) ≠ 0 := by
  rw [h.mask, hn]
  exact not_not.2 rfl

/-- The first place that a contiguous call may take. -/
def FirstPlace (lp : FamfsLockedLog) (size p : ℕ) : Prop :=
  IsLeast {q | Candidate lp.bits lp.nbits lp.allocUnit size lp.curPos 0 q} p

/-- The session after a contiguous call has taken place `p`. -/
def FamfsLockedLog.taking (lp : FamfsLockedLog) (size p : ℕ) : FamfsLockedLog :=
  { lp with
    bitmap := some (setRun lp.bits (allocBits lp.allocUnit size) p)
    curPos := u64 ((p + allocBits lp.allocUnit size) * lp.allocUnit) }

theorem famfsFileAllocContiguous_cases {host : AllocHost} (hmem : host.fmapMem = true) (lp : FamfsLockedLog) (size : ℕ) :
    ((∀ p, ¬ Candidate lp.bits lp.nbits lp.allocUnit size lp.curPos 0 p) ∧
      famfsFileAllocContiguous host lp size = .ok (-ENOMEM, none, { lp with bitmap := some lp.bits })) ∨
    ∃ p, FirstPlace lp size p ∧ famfsFileAllocContiguous host lp size =
      if s64 (p * lp.allocUnit) < 0 then .ok (-ENOMEM, none, lp.taking size p)
      else if s64 (p * lp.allocUnit) = 0 then .error .assertion
      else .ok (0, some (contiguousFmap (s64 (p * lp.allocUnit)).toNat size), lp.taking size p) := by
  rcases bitmapAllocContiguous_cases lp.bits lp.nbits lp.allocUnit size lp.curPos 0 with ⟨hno, heq⟩ | ⟨p, hp, hmin, heq⟩
  · refine Or.inl ⟨hno, ?_⟩
    simp [famfsFileAllocContiguous, hmem, heq]
  · refine Or.inr ⟨p, ⟨hp, fun q hq => hmin q hq⟩, ?_⟩
    simp only [famfsFileAllocContiguous, hmem, heq, Bool.true_eq_false, if_false]
    rfl

theorem famfsFileAllocContiguous_success {host : AllocHost} {lp lp' : FamfsLockedLog} {size : ℕ} {fmap : FamfsLogFmap}
    (h : famfsFileAllocContiguous host lp size = .ok (0, some fmap, lp')) :
    ∃ p, FirstPlace lp size p ∧ 0 < s64 (p * lp.allocUnit) ∧
      fmap = contiguousFmap (s64 (p * lp.allocUnit)).toNat size ∧ lp' = lp.taking size p := by
  have hmem : host.fmapMem = true := by
    cases hm : host.fmapMem with
    | true => rfl
    | false =>
      rw [famfsFileAllocContiguous, if_pos hm] at h
      cases h
  rcases famfsFileAllocContiguous_cases hmem lp size with ⟨-, heq⟩ | ⟨p, hp, heq⟩
  · rw [heq] at h
    cases h
  · rw [heq] at h
    split_ifs at h with hneg hzero
    · cases h
    · cases h
      exact ⟨p, hp, by omega, rfl, rfl⟩

theorem famfsFileAllocContiguous_first {host : AllocHost} (hmem : host.fmapMem = true) {lp : FamfsLockedLog} {size p : ℕ}
    (hp : FirstPlace lp size p) (hpos : 0 < s64 (p * lp.allocUnit)) :
    famfsFileAllocContiguous host lp size =
      .ok (0, some (contiguousFmap (s64 (p * lp.allocUnit)).toNat size), lp.taking size p) := by
  rcases famfsFileAllocContiguous_cases hmem lp size with ⟨hno, -⟩ | ⟨q, hq, heq⟩
  · exact absurd hp.1 (hno p)
  · rw [heq, IsLeast.unique hq hp, if_neg (by omega), if_neg (by omega)]

end Famfs
