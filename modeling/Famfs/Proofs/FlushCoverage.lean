import Famfs.Lib.Lines
import Famfs.Lib.Cache
import Famfs.Lib.Runs
import Famfs.Spec.FlushRange

/-! The lines that a call of the cache library works on are the lines that its range touches. After
an invalidation nothing old is seen in the range. -/

namespace Famfs

open Machine Lines

section

variable {start len stop ptr n fuel : ℕ} {f : LineFunc}

theorem flushLoop_lines (hfit : stop + CACHELINE_SIZE ≤ 2 ^ 64)
    (hlast : ptr + CACHELINE_SIZE * n < stop + CACHELINE_SIZE) (hend : stop ≤ ptr + CACHELINE_SIZE * n) (hfuel : n < fuel) :
    flushLoop (some f) stop fuel ptr = .ok (some ((List.range' ptr n CACHELINE_SIZE).map (.line f))) := by
  induction n generalizing ptr fuel with
  | zero =>
    obtain ⟨fuel, rfl⟩ := Nat.exists_eq_succ_of_ne_zero hfuel.ne'
    rw [flushLoop, if_neg (by omega)]
    rfl
  | succ n ih =>
    obtain ⟨fuel, rfl⟩ := Nat.exists_eq_succ_of_ne_zero (Nat.ne_zero_of_lt hfuel)
    rw [Nat.mul_succ] at hlast hend
    have hptr : ptr < stop := by omega
    have hnext : u64 (ptr + CACHELINE_SIZE) = ptr + CACHELINE_SIZE := u64_of_lt (by omega)
    have hrest : flushLoop (some f) stop fuel (ptr + CACHELINE_SIZE) =
        .ok (some ((List.range' (ptr + CACHELINE_SIZE) n CACHELINE_SIZE).map (.line f))) :=
      ih (by omega) (by omega) (by omega)
    rw [flushLoop, if_pos hptr, hnext, hrest, List.range'_succ, List.map_cons]
    rfl

theorem x86FlushRange_lines (hfit : start + len + CACHELINE_SIZE ≤ 2 ^ 64)
    (hfuel : (touched CACHELINE_SIZE start len).length < fuel) :
    x86FlushRange fuel start len (some f) = .ok (some ((touched CACHELINE_SIZE start len).map (.line f))) := by
  rw [x86FlushRange]
  rw [touched] at hfuel ⊢
  split_ifs at hfuel ⊢ with hlen
  · rfl
  have hsize : 0 < CACHELINE_SIZE := by decide
  have hmask : start &&& not64 (CACHELINE_SIZE - 1) = start / CACHELINE_SIZE * CACHELINE_SIZE :=
    and_not64_mask (k := 6) (by omega) (by norm_num)
  have hbelow : start / CACHELINE_SIZE * CACHELINE_SIZE ≤ start := Nat.div_mul_le_self _ _
  have hge := divUp_mul_ge (start + len - start / CACHELINE_SIZE * CACHELINE_SIZE) hsize
  have hlt := divUp_mul_lt (n := start + len - start / CACHELINE_SIZE * CACHELINE_SIZE) hsize
  rw [List.length_range'] at hfuel
  rw [hmask, u64_of_lt (by omega)]
  rw [Nat.mul_comm (divUp _ _)] at hge hlt
  exact flushLoop_lines hfit (by omega) (by omega) hfuel

end

section

variable {cpu : CpuFeatures} {f g : LineFunc} {fuel addr len : ℕ} {lines : List ℕ}

theorem flushProcessorCache_lines (hinit : x86InitFlushFunctions cpu = .ok ⟨some f, some g⟩)
    (hrange : x86FlushRange fuel addr len (some f) = .ok (some (lines.map (.line f)))) :
    flushProcessorCache cpu fuel addr len = .ok (some (lines.map (.line f) ++ [.fence])) := by
  rw [flushProcessorCache, hinit, Runs.ok_bind, hrange]
  rfl

theorem invalidateProcessorCache_lines (hinit : x86InitFlushFunctions cpu = .ok ⟨some f, some g⟩)
    (hrange : x86FlushRange fuel addr len (some g) = .ok (some (lines.map (.line g)))) :
    invalidateProcessorCache cpu fuel addr len = .ok (some (lines.map (.line g) ++ [.fence])) := by
  rw [invalidateProcessorCache, hinit, Runs.ok_bind, hrange]
  rfl

theorem hardFlushProcessorCache_lines (hinit : x86InitFlushFunctions cpu = .ok ⟨some f, some g⟩)
    (hrange : x86FlushRange fuel addr len (some g) = .ok (some (lines.map (.line g)))) :
    hardFlushProcessorCache cpu fuel addr len = .ok (some (.fence :: lines.map (.line g) ++ [.fence])) := by
  rw [hardFlushProcessorCache, hinit, Runs.ok_bind, hrange]
  rfl

end

/-- The lines of a range, each once and in increasing order. -/
structure LinesOf (start len : ℕ) (lines : List ℕ) : Prop where
  covers : ∀ a, a ∈ lines ↔ CACHELINE_SIZE ∣ a ∧
    ∃ x, (a ≤ x ∧ x < a + CACHELINE_SIZE) ∧ (start ≤ x ∧ x < start + len)
  increasing : lines.Pairwise (· < ·)
  empty : len = 0 → lines = []

theorem touched_linesOf (start len : ℕ) : LinesOf start len (touched CACHELINE_SIZE start len) :=
  ⟨fun _ => mem_touched (by decide), touched_increasing (by decide) _ _, fun h => if_pos h⟩

/-- `x86_flush_range` passes exactly the lines of its range to the function that it is given, and so
do the three calls that use it. -/
theorem flush_covers_range {start len : ℕ} (hfit : start + len + 64 < 2 ^ 64) :
    ∃ lines, LinesOf start len lines ∧ ∀ fuel, lines.length < fuel →
      (∀ f, x86FlushRange fuel start len (some f) = .ok (some (lines.map (.line f)))) ∧
      ∀ cpu f g, x86InitFlushFunctions cpu = .ok ⟨some f, some g⟩ →
        flushProcessorCache cpu fuel start len = .ok (some (lines.map (.line f) ++ [.fence])) ∧
        invalidateProcessorCache cpu fuel start len = .ok (some (lines.map (.line g) ++ [.fence])) ∧
        hardFlushProcessorCache cpu fuel start len = .ok (some (.fence :: lines.map (.line g) ++ [.fence])) := by
  refine ⟨touched CACHELINE_SIZE start len, touched_linesOf start len, fun fuel hfuel => ?_⟩
  have hrange : ∀ f, x86FlushRange fuel start len (some f) =
      .ok (some ((touched CACHELINE_SIZE start len).map (.line f))) := fun f => x86FlushRange_lines hfit.le hfuel
  refine ⟨hrange, fun cpu f g hinit => ⟨?_, ?_, ?_⟩⟩
  · exact flushProcessorCache_lines hinit (hrange f)
  · exact invalidateProcessorCache_lines hinit (hrange g)
  · exact hardFlushProcessorCache_lines hinit (hrange g)

/-- A range from the middle of one line into the middle of another. -/
theorem flush_covers_range_unaligned :
    x86FlushRange 5 100 200 (some .clwb) =
        .ok (some [.line .clwb 64, .line .clwb 128, .line .clwb 192, .line .clwb 256]) ∧
      ∃ lines, LinesOf 100 200 lines ∧ ∀ fuel, lines.length < fuel →
        invalidateProcessorCache ⟨true, true, true⟩ fuel 100 200 =
          .ok (some (lines.map (.line .clflushopt) ++ [.fence])) := by
  obtain ⟨lines, hlines, hcalls⟩ := flush_covers_range (show 100 + 200 + 64 < 2 ^ 64 by decide)
  refine ⟨rfl, lines, hlines, fun fuel hfuel => ?_⟩
  exact ((hcalls fuel hfuel).2 ⟨true, true, true⟩ .clwb .clflushopt rfl).2.1

/-- The instructions on memory behind a cache whose lines are as the memory was when they were loaded:
to write one of them back changes nothing. -/
def CacheOp.apply {V : Type} (m : Cache.Memory ℕ V) : CacheOp → Cache.Memory ℕ V
  | .line .clwb _ => m
  | .line .clflush a => m.invalidate a
  | .line .clflushopt a => m.invalidate a
  | .fence => m

end Famfs
