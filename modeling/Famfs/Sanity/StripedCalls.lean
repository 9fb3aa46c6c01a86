import Mathlib.Data.List.GetD
import Famfs.Sanity.AllocPasses

/-! Striped calls whose parameters are accepted. The shuffle is a permutation of the
buckets, each pass searches from the start of one of them, and a call that succeeds
returns the strips of its passes in order. -/

namespace Famfs

open Machine Intervals

theorem strip_length {g : StripeGeometry} (hunit : UnitAdmitted g.allocUnit) :
    u64 (g.stripSizeAu * g.allocUnit) = g.stripUnits * g.allocUnit := by
  unfold StripeGeometry.stripUnits
  rcases hunit with h | h
  · simp only [h, allocBits, u64]
    omega
  · simp only [h, allocBits, u64, FAMFS_ALLOC_UNIT]
    omega

theorem stripSizeAu_eq {lp : FamfsLockedLog} {size : ℕ} (hunit : lp.allocUnit = FAMFS_ALLOC_UNIT)
    (hmul : lp.interleaveParam.chunkSize % FAMFS_ALLOC_UNIT = 0) (hpos : 0 < lp.interleaveParam.chunkSize)
    (hchunk : lp.interleaveParam.chunkSize < 2 ^ 64) (hlo : 1 ≤ lp.interleaveParam.nstrips)
    (hhi : lp.interleaveParam.nstrips ≤ 16) (hsize : size + FAMFS_ALLOC_UNIT - 1 < 2 ^ 64) :
    (stripeGeometry lp size).stripSizeAu =
      ((s32 (divUp size (lp.interleaveParam.nstrips * lp.interleaveParam.chunkSize)) *
        ((lp.interleaveParam.chunkSize / FAMFS_ALLOC_UNIT : ℕ) : ℤ)) % 2 ^ 64).toNat := by
  obtain ⟨c, hc⟩ := Nat.dvd_of_mod_eq_zero hmul
  have hau : 0 < FAMFS_ALLOC_UNIT := by decide
  have hdiv : lp.interleaveParam.chunkSize / FAMFS_ALLOC_UNIT = c := by rw [hc, Nat.mul_div_cancel_left _ hau]
  have hcpos : 0 < c := Nat.pos_of_ne_zero fun h => by simp [h] at hc; omega
  have hcle : c < 2 ^ 43 := by
    simp only [FAMFS_ALLOC_UNIT] at hc
    omega
  have hk : 0 < lp.interleaveParam.nstrips * c := Nat.mul_pos hlo hcpos
  have hstripe : u64 (lp.interleaveParam.nstrips * c) = lp.interleaveParam.nstrips * c := by
    refine u64_of_lt (lt_of_le_of_lt (Nat.mul_le_mul hhi hcle.le) (by norm_num))
  have halloc : u64 (size + FAMFS_ALLOC_UNIT - 1) / FAMFS_ALLOC_UNIT = divUp size FAMFS_ALLOC_UNIT := by
    rw [u64_of_lt hsize]
    rfl
  have hfew : divUp size FAMFS_ALLOC_UNIT ≤ 2 ^ 43 := by
    rw [divUp_le hau]
    simp only [FAMFS_ALLOC_UNIT] at hsize ⊢
    omega
  have hcount : u64 (divUp size FAMFS_ALLOC_UNIT + lp.interleaveParam.nstrips * c - 1) / (lp.interleaveParam.nstrips * c) =
      divUp size (lp.interleaveParam.nstrips * lp.interleaveParam.chunkSize) := by
    have hle : lp.interleaveParam.nstrips * c ≤ 16 * 2 ^ 43 := Nat.mul_le_mul hhi hcle.le
    rw [u64_of_lt (by omega), hc, Nat.mul_comm FAMFS_ALLOC_UNIT c, ← Nat.mul_assoc, ← divUp_divUp size hau hk]
    rfl
  simp only [stripeGeometry, hunit, hdiv, hstripe, halloc, hcount]

theorem strip_bytes_int {lp : FamfsLockedLog} {size : ℕ} (hunit : lp.allocUnit = FAMFS_ALLOC_UNIT)
    (hmul : lp.interleaveParam.chunkSize % FAMFS_ALLOC_UNIT = 0) (hpos : 0 < lp.interleaveParam.chunkSize)
    (hchunk : lp.interleaveParam.chunkSize < 2 ^ 64) (hlo : 1 ≤ lp.interleaveParam.nstrips)
    (hhi : lp.interleaveParam.nstrips ≤ 16) (hsize : size + FAMFS_ALLOC_UNIT - 1 < 2 ^ 64) :
    (((stripeGeometry lp size).stripUnits * FAMFS_ALLOC_UNIT : ℕ) : ℤ) =
      s32 (divUp size (lp.interleaveParam.nstrips * lp.interleaveParam.chunkSize)) * lp.interleaveParam.chunkSize %
        2 ^ 64 := by
  have hc : lp.interleaveParam.chunkSize / FAMFS_ALLOC_UNIT * FAMFS_ALLOC_UNIT = lp.interleaveParam.chunkSize :=
    Nat.div_mul_cancel (Nat.dvd_of_mod_eq_zero hmul)
  have hlength := strip_length (g := stripeGeometry lp size) (Or.inr hunit)
  change u64 ((stripeGeometry lp size).stripSizeAu * lp.allocUnit) = _ * lp.allocUnit at hlength
  rw [hunit, stripSizeAu_eq hunit hmul hpos hchunk hlo hhi hsize] at hlength
  rw [← hlength, u64, Int.natCast_mod, Nat.cast_mul, Int.toNat_of_nonneg (Int.emod_nonneg _ (by norm_num)), Nat.cast_pow,
    Nat.cast_ofNat, Int.mul_emod, Int.emod_emod, ← Int.mul_emod, mul_assoc, ← Nat.cast_mul, hc]

theorem strip_bytes {lp : FamfsLockedLog} {size : ℕ} (hunit : lp.allocUnit = FAMFS_ALLOC_UNIT)
    (hmul : lp.interleaveParam.chunkSize % FAMFS_ALLOC_UNIT = 0) (hpos : 0 < lp.interleaveParam.chunkSize)
    (hchunk : lp.interleaveParam.chunkSize < 2 ^ 64) (hlo : 1 ≤ lp.interleaveParam.nstrips)
    (hhi : lp.interleaveParam.nstrips ≤ 16) (hsize : size + FAMFS_ALLOC_UNIT - 1 < 2 ^ 64)
    (hfew : divUp size (lp.interleaveParam.nstrips * lp.interleaveParam.chunkSize) < 2 ^ 31)
    (hbytes : divUp size (lp.interleaveParam.nstrips * lp.interleaveParam.chunkSize) * lp.interleaveParam.chunkSize <
      2 ^ 64) :
    (stripeGeometry lp size).stripUnits * FAMFS_ALLOC_UNIT =
      divUp size (lp.interleaveParam.nstrips * lp.interleaveParam.chunkSize) * lp.interleaveParam.chunkSize := by
  have hint := strip_bytes_int hunit hmul hpos hchunk hlo hhi hsize
  rw [s32_of_lt hfew, ← Nat.cast_mul] at hint
  omega

theorem swapBuckets_eq {b : List ℕ} (hint : ∀ x ∈ b, x < 2 ^ 31) {i j : ℕ} (hi : i < b.length) (hj : j < b.length) :
    swapBuckets b i j = (b.set i b[j]).set j b[i] := by
  have hx : b[i] < 2 ^ 31 := hint _ (List.getElem_mem hi)
  have hkeep : (s32 b[i] % 2 ^ 64).toNat = b[i] := by
    rw [s32_of_lt hx]
    omega
  rw [swapBuckets, List.getD_eq_getElem _ _ hi, List.getD_eq_getElem _ _ hj, hkeep]

theorem swapBuckets_perm {b : List ℕ} (hint : ∀ x ∈ b, x < 2 ^ 31) {i j : ℕ} (hi : i < b.length) (hj : j < b.length) :
    (swapBuckets b i j).Perm b := by
  rw [swapBuckets_eq hint hi hj]
  exact List.set_set_perm hi hj

theorem shuffleBuckets_perm (rand : ℕ → ℕ) (n : ℕ) (b : List ℕ) (hint : ∀ x ∈ b, x < 2 ^ 31) (hn : n < b.length) :
    (shuffleBuckets rand n b).Perm b := by
  induction n generalizing b with
  | zero => exact List.Perm.refl b
  | succ n ih =>
    have hj : rand (n + 1) % (n + 2) < b.length := by
      have := Nat.mod_lt (rand (n + 1)) (show 0 < n + 2 by omega)
      omega
    have hswap := swapBuckets_perm hint hn hj
    have hrest := ih _ (fun x hx => hint x (hswap.mem_iff.1 hx)) (by rw [hswap.length_eq]; omega)
    exact hrest.trans hswap

theorem bucketSeriesAlloc_buckets (rand : ℕ → ℕ) {nbuckets start : ℕ} (hn : 0 < nbuckets)
    (hint : start + nbuckets ≤ 2 ^ 31) :
    (bucketSeriesAlloc rand nbuckets start).buckets =
      shuffleBuckets rand (nbuckets - 1) (List.range' start nbuckets) := by
  have hlast : (s32 (nbuckets - 1)).toNat = nbuckets - 1 := by
    rw [s32_of_lt (by omega)]
    rfl
  have hinit : (List.range nbuckets).map (fun i => u64 (i + start)) = List.range' start nbuckets := by
    rw [List.range'_eq_map_range]
    refine List.map_congr_left fun i hi => ?_
    rw [List.mem_range] at hi
    rw [u64_of_lt (by omega), Nat.add_comm]
  rw [bucketSeriesAlloc, hlast, hinit]

theorem bucketSeriesAlloc_perm (rand : ℕ → ℕ) {nbuckets start : ℕ} (hn : 0 < nbuckets)
    (hint : start + nbuckets ≤ 2 ^ 31) :
    (bucketSeriesAlloc rand nbuckets start).buckets.Perm (List.range' start nbuckets) := by
  rw [bucketSeriesAlloc_buckets rand hn hint]
  refine shuffleBuckets_perm rand _ _ (fun x hx => ?_) (by rw [List.length_range']; omega)
  rw [List.mem_range'_1] at hx
  omega

/-- A file of at least a chunk and at most the device, with accepted parameters for one to
sixteen strips. -/
structure StripedCall (lp : FamfsLockedLog) (size : ℕ) : Prop where
  accepted : famfsValidateInterleaveParam lp.interleaveParam lp.allocUnit lp.devsize = 0
  lo : 1 ≤ lp.interleaveParam.nstrips
  hi : lp.interleaveParam.nstrips ≤ 16
  chunk : lp.interleaveParam.chunkSize ≤ size
  size : size ≤ lp.devsize
  dev : lp.devsize < 2 ^ 64
  unit : UnitAdmitted lp.allocUnit
  nbits : lp.nbits = bitmapNbits lp.devsize lp.allocUnit

/-- The state that the loop over buckets starts from. -/
def stripStart (host : AllocHost) (lp : FamfsLockedLog) : StripState :=
  ⟨bucketSeriesAlloc host.rand lp.interleaveParam.nbuckets 0, lp.bits, stripedFmap lp.interleaveParam, 0, 0⟩

def stripPasses (host : AllocHost) (lp : FamfsLockedLog) (size : ℕ) : List StripState :=
  stripHeads (stripeGeometry lp size) lp.interleaveParam.nbuckets (stripStart host lp)

theorem famfsValidateInterleaveParam_bounds {p : FamfsInterleaveParam} {au devsize : ℕ}
    (h : famfsValidateInterleaveParam p au devsize = 0) (hn : 1 ≤ p.nstrips) :
    p.nstrips ≤ p.nbuckets ∧ p.nbuckets ≤ 64 := by
  simp only [famfsValidateInterleaveParam, EINVAL, FAMFS_MAX_NBUCKETS] at h
  split_ifs at h <;> omega

section

variable {host : AllocHost} {lp lp' : FamfsLockedLog} {size : ℕ}

theorem buckets_fit (lp : FamfsLockedLog) (size : ℕ) :
    (stripeGeometry lp size).bucketSizeAu * lp.allocUnit * lp.interleaveParam.nbuckets ≤ lp.devsize := by
  calc lp.devsize / lp.allocUnit / lp.interleaveParam.nbuckets * lp.allocUnit * lp.interleaveParam.nbuckets
      = lp.devsize / lp.allocUnit / lp.interleaveParam.nbuckets * lp.interleaveParam.nbuckets * lp.allocUnit := by ring
    _ ≤ lp.devsize / lp.allocUnit * lp.allocUnit := Nat.mul_le_mul_right _ (Nat.div_mul_le_self _ _)
    _ ≤ lp.devsize := Nat.div_mul_le_self _ _

theorem buckets_check (lp : FamfsLockedLog) (size : ℕ) (hdev : lp.devsize < 2 ^ 64) : ¬ (lp.devsize : ℤ) <
    s64 ((stripeGeometry lp size).bucketSizeAu * lp.allocUnit * lp.interleaveParam.nbuckets) := by
  have hfit := buckets_fit lp size
  rw [s64, u64_of_lt (by omega)]
  split_ifs <;> omega

namespace StripedCall

variable (h : StripedCall lp size)

include h

theorem unit_pos : 0 < lp.allocUnit ∧ lp.allocUnit ≤ 2 ^ 21 := by
  rcases h.unit with hu | hu
  · omega
  · simp only [FAMFS_ALLOC_UNIT] at hu
    omega

theorem nbuckets_pos : 0 < lp.interleaveParam.nbuckets := (famfsValidateInterleaveParam_zero h.accepted h.lo).2.2.1

theorem bucket_pos : 0 < (stripeGeometry lp size).bucketSizeAu := by
  obtain ⟨-, -, hnb, hgib⟩ := famfsValidateInterleaveParam_zero h.accepted h.lo
  have hu := h.unit_pos
  have hbucket : (stripeGeometry lp size).bucketSizeAu = lp.devsize / lp.interleaveParam.nbuckets / lp.allocUnit := by
    simp only [stripeGeometry]
    rw [Nat.div_div_eq_div_mul, Nat.div_div_eq_div_mul, Nat.mul_comm]
  rw [hbucket]
  exact Nat.div_pos (by omega) hu.1

theorem unit_lt {p : ℕ} (hp : p < (stripeGeometry lp size).nbits) : p * lp.allocUnit < 2 ^ 64 := by
  have hu := h.unit_pos.1
  have hnbits : (stripeGeometry lp size).nbits = u64 (lp.devsize + lp.allocUnit - 1) / lp.allocUnit := h.nbits
  have hmul : u64 (lp.devsize + lp.allocUnit - 1) / lp.allocUnit * lp.allocUnit ≤ u64 (lp.devsize + lp.allocUnit - 1) :=
    Nat.div_mul_le_self _ _
  have hlt : p * lp.allocUnit < u64 (lp.devsize + lp.allocUnit - 1) / lp.allocUnit * lp.allocUnit :=
    Nat.mul_lt_mul_of_pos_right (hnbits ▸ hp) hu
  have := u64_lt (lp.devsize + lp.allocUnit - 1)
  omega

theorem range_eq :
    rangeBits (stripeGeometry lp size).nbits (stripeGeometry lp size).allocUnit
      (u64 ((stripeGeometry lp size).bucketSizeAu * (stripeGeometry lp size).allocUnit)) =
      (stripeGeometry lp size).bucketSizeAu := by
  have hpos := h.bucket_pos
  have hu := h.unit_pos.1
  have hdev := h.dev
  have hle : (stripeGeometry lp size).bucketSizeAu * lp.allocUnit ≤ lp.devsize :=
    (Nat.le_mul_of_pos_right _ h.nbuckets_pos).trans (buckets_fit lp size)
  have hposb : 0 < (stripeGeometry lp size).bucketSizeAu * lp.allocUnit := Nat.mul_pos hpos hu
  change rangeBits _ lp.allocUnit (u64 (_ * lp.allocUnit)) = _
  generalize (stripeGeometry lp size).bucketSizeAu = bs at *
  have hroom : bs * lp.allocUnit + lp.allocUnit - 1 < 2 ^ 64 := by
    rcases h.unit with hunit | hunit
    · rw [hunit] at hle ⊢
      omega
    · simp only [hunit, FAMFS_ALLOC_UNIT] at hle ⊢
      omega
  rw [u64_of_lt (by omega), rangeBits, if_pos (by omega), u64_of_lt hroom]
  exact divUp_mul bs hu

theorem takes_iff {s : StripState} {p : ℕ} :
    Takes (stripeGeometry lp size) s p ↔ IsLeast {q | q < (stripeGeometry lp size).nbits ∧
      Selectable s.bitmap (stripeGeometry lp size).stripUnits (passStart (stripeGeometry lp size) s)
        (stripeGeometry lp size).bucketSizeAu (passStart (stripeGeometry lp size) s) q} p := by
  rw [Takes]
  simp only [Candidate, h.range_eq]
  rfl

theorem stripAt_eq {s : StripState} {p : ℕ} (ht : Takes (stripeGeometry lp size) s p)
    (hs : Stored (stripeGeometry lp size) p) :
    stripAt (stripeGeometry lp size) p = ⟨0, p * lp.allocUnit, (stripeGeometry lp size).stripUnits * lp.allocUnit⟩ := by
  have hlt := h.unit_lt ht.lt
  have hofs : (s64 (p * lp.allocUnit)).toNat = p * lp.allocUnit := by
    have hs' : 0 < s64 (p * lp.allocUnit) := hs
    rw [s64, u64_of_lt hlt] at hs' ⊢
    split_ifs at hs' ⊢ <;> omega
  rw [stripAt, strip_length h.unit]
  exact congrArg (FamfsSimpleExtent.mk 0 · _) hofs

theorem eq_loop :
    famfsFileStridedAlloc host lp size = if host.fmapMem = false then .ok (-ENOMEM, none, lp)
      else (stripLoop (stripeGeometry lp size) lp.interleaveParam.nbuckets (stripStart host lp)).bind
        (finishStrips lp (stripeGeometry lp size)) := by
  obtain ⟨hmul, hpos, hnb, -⟩ := famfsValidateInterleaveParam_zero h.accepted h.lo
  obtain ⟨hle, -⟩ := famfsValidateInterleaveParam_bounds h.accepted h.lo
  have hlo := h.lo
  have hhi := h.hi
  have hchunk := h.chunk
  have hsize := h.size
  have hdev := h.dev
  have hstripe : u64 (lp.interleaveParam.nstrips * (lp.interleaveParam.chunkSize / lp.allocUnit)) =
      lp.interleaveParam.nstrips * (lp.interleaveParam.chunkSize / lp.allocUnit) ∧
      lp.interleaveParam.nstrips * (lp.interleaveParam.chunkSize / lp.allocUnit) ≠ 0 := by
    have hc : 1 ≤ lp.interleaveParam.chunkSize / lp.allocUnit ∧ lp.interleaveParam.chunkSize / lp.allocUnit < 2 ^ 52 := by
      rcases h.unit with hu | hu
      · rw [hu] at hmul ⊢
        omega
      · simp only [hu, FAMFS_ALLOC_UNIT] at hmul ⊢
        omega
    have hlow : 1 * 1 ≤ lp.interleaveParam.nstrips * (lp.interleaveParam.chunkSize / lp.allocUnit) :=
      Nat.mul_le_mul hlo hc.1
    have hhigh : lp.interleaveParam.nstrips * (lp.interleaveParam.chunkSize / lp.allocUnit) ≤ 16 * 2 ^ 52 :=
      Nat.mul_le_mul hhi hc.2.le
    exact ⟨u64_of_lt (by omega), by omega⟩
  rw [famfsFileStridedAlloc]
  simp only [h.accepted, ne_eq, not_true_eq_false, if_false]
  rw [hstripe.1, if_neg (by omega), if_neg (by omega), if_neg (by push Not; exact ⟨by omega, by omega, hstripe.2⟩),
    if_neg (not_not.2 (Nat.mul_mod_right _ _)), if_neg (buckets_check lp size hdev)]
  rfl

end StripedCall

theorem StripedCall.loop (h : StripedCall lp size) (host : AllocHost) :
    ∃ st, stripLoop (stripeGeometry lp size) lp.interleaveParam.nbuckets (stripStart host lp) = .ok st ∧
      HeadsFrom (stripeGeometry lp size) (stripStart host lp) (stripPasses host lp size) ∧
      LoopEnd (stripeGeometry lp size) lp.interleaveParam.nbuckets (stripStart host lp) st (stripPasses host lp size) := by
  have hlt : (stripStart host lp).nstripsAllocated < (stripeGeometry lp size).nstrips := h.lo
  obtain ⟨st, hst⟩ := stripLoop_ok hlt h.hi
  obtain ⟨hheads, hend⟩ := stripLoop_end hlt (Nat.zero_le _) hst
  exact ⟨st, hst, hheads, hend⟩

theorem LoopEnd.extents {st : StripState} {fuel : ℕ}
    (hend : LoopEnd (stripeGeometry lp size) fuel (stripStart host lp) st (stripPasses host lp size))
    (hall : st.nstripsAllocated = lp.interleaveParam.nstrips) :
    FamfsLogFmap.extents { st.fmap with fmapNextents := 1 } =
      ((stripPasses host lp size).filterMap (passStrip (stripeGeometry lp size))).map (stripAt (stripeGeometry lp size)) := by
  have hhead : st.fmap.head = (stripedFmap lp.interleaveParam).head := hend.head
  rw [stripedFmap_head] at hhead
  simp only [FamfsLogFmap.head, Prod.mk.injEq] at hhead
  obtain ⟨htype, -, hstrips, -⟩ := hhead
  have hcount : st.nstripsAllocated =
      ((stripPasses host lp size).filterMap (passStrip (stripeGeometry lp size))).length := by
    rw [hend.count]
    exact Nat.zero_add _
  refine (extents_interleave (f := { st.fmap with fmapNextents := 1 }) htype rfl).trans ?_
  change (List.range (st.fmap.ieNstrips 0)).map (st.fmap.ieStrips 0) = _
  rw [hstrips, ← hall, hcount]
  refine List.ext_getElem (by simp) fun j h1 h2 => ?_
  rw [List.length_map] at h2
  have hslot := hend.slots j
  simp only [stripStart, Nat.not_lt_zero, if_false, Nat.sub_zero] at hslot
  rw [List.getElem_map, List.getElem_range, hslot, List.getElem?_eq_getElem (by rw [List.length_map]; exact h2),
    Option.getD_some]

theorem famfsFileStridedAlloc_valid {fmap : FamfsLogFmap}
    (hok : famfsFileStridedAlloc host lp size = .ok (0, some fmap, lp')) :
    famfsValidateInterleaveParam lp.interleaveParam lp.allocUnit lp.devsize = 0 := by
  by_contra hrc
  simp [famfsFileStridedAlloc, hrc] at hok

theorem famfsFileStridedAlloc_success {fmap : FamfsLogFmap} (hlo : 1 ≤ lp.interleaveParam.nstrips)
    (hchunk : lp.interleaveParam.chunkSize ≤ size)
    (hok : famfsFileStridedAlloc host lp size = .ok (0, some fmap, lp')) :
    ∃ st, stripLoop (stripeGeometry lp size) lp.interleaveParam.nbuckets (stripStart host lp) = .ok st ∧
      HeadsFrom (stripeGeometry lp size) (stripStart host lp) (stripPasses host lp size) ∧
      LoopEnd (stripeGeometry lp size) lp.interleaveParam.nbuckets (stripStart host lp) st (stripPasses host lp size) ∧
      st.nstripsAllocated = lp.interleaveParam.nstrips ∧ fmap = { st.fmap with fmapNextents := 1 } ∧
      lp' = { lp with bitmap := some st.bitmap } := by
  have hlt : (stripStart host lp).nstripsAllocated < (stripeGeometry lp size).nstrips := hlo
  simp only [famfsFileStridedAlloc] at hok
  split_ifs at hok with hrc hfew hsize hdiv hmod hdev hmem
  · simp at hok
  · omega
  · simp at hok
  · rw [Runs.bind_eq_ok] at hok
    obtain ⟨st, hst, hfin⟩ := hok
    obtain ⟨hheads, hend⟩ := stripLoop_end hlt (Nat.zero_le _) hst
    rw [finishStrips] at hfin
    split_ifs at hfin with hless
    · rw [Runs.bind_eq_ok] at hfin
      obtain ⟨bm, -, hret⟩ := hfin
      cases hret
    · simp only [Except.ok.injEq, Prod.mk.injEq, Option.some.injEq, true_and] at hfin
      exact ⟨st, hst, hheads, hend, Nat.le_antisymm hend.bound (not_lt.1 hless), hfin.1.symm, hfin.2.symm⟩

def passBucket (st : StripState) : ℕ := st.bs.buckets.getD st.bs.current 0

theorem stripHeads_length_le (g : StripeGeometry) (fuel : ℕ) (st : StripState) : (stripHeads g fuel st).length ≤ fuel := by
  induction fuel generalizing st with
  | zero => exact le_rfl
  | succ fuel ih =>
    rw [stripHeads, List.length_cons]
    refine Nat.succ_le_succ ?_
    split
    · exact ih _
    · exact Nat.zero_le _

theorem passes_buckets
    (hheads : HeadsFrom (stripeGeometry lp size) (stripStart host lp) (stripPasses host lp size)) {i : ℕ}
    (hi : i < (stripPasses host lp size).length) :
    (stripPasses host lp size)[i].bs = ⟨lp.interleaveParam.nbuckets, i, (stripStart host lp).bs.buckets⟩ := by
  have hsplit : stripPasses host lp size = (stripPasses host lp size).take i ++
      (stripPasses host lp size)[i] :: (stripPasses host lp size).drop (i + 1) := by
    rw [List.getElem_cons_drop, List.take_append_drop]
  have hlen : (stripPasses host lp size).length ≤ lp.interleaveParam.nbuckets := stripHeads_length_le _ _ _
  have hcur : min lp.interleaveParam.nbuckets (0 + ((stripPasses host lp size).take i).length) = i := by
    rw [List.length_take]
    omega
  rw [hheads.bucket _ _ _ hsplit]
  exact congrArg (fun c => (⟨lp.interleaveParam.nbuckets, c, (stripStart host lp).bs.buckets⟩ : BucketSeries)) hcur

theorem bucketPos_next {g : StripeGeometry} {bs : BucketSeries} {b : ℕ} (hcur : bs.current < bs.nbuckets)
    (hb : bs.buckets.getD bs.current 0 = b) (hsmall : b < 2 ^ 63) (hfit : b * g.bucketSizeAu * g.allocUnit < 2 ^ 64)
    (hunit : 0 < g.allocUnit) : bucketPos g bs = b * g.bucketSizeAu * g.allocUnit := by
  have hnext : (bucketSeriesNext bs).1 = b := by
    rw [bucketSeriesNext, if_neg (by omega), hb]
    exact s64_of_lt hsmall
  have hle : b * g.bucketSizeAu ≤ b * g.bucketSizeAu * g.allocUnit := Nat.le_mul_of_pos_right _ hunit
  have hnat : (((bucketSeriesNext bs).1 % 2 ^ 64).toNat) = b := by
    rw [hnext]
    omega
  rw [bucketPos, hnat, u64_of_lt (lt_of_le_of_lt hle hfit), u64_of_lt hfit]

theorem passStart_eq {s : StripState} (hunit : 0 < lp.allocUnit) (hdev : lp.devsize < 2 ^ 64)
    (hnb : lp.interleaveParam.nbuckets ≤ 64) (hcur : s.bs.current < s.bs.nbuckets)
    (hlt : passBucket s < lp.interleaveParam.nbuckets) :
    passStart (stripeGeometry lp size) s = passBucket s * (stripeGeometry lp size).bucketSizeAu := by
  have hfit : passBucket s * (stripeGeometry lp size).bucketSizeAu * lp.allocUnit ≤ lp.devsize :=
    calc passBucket s * (stripeGeometry lp size).bucketSizeAu * lp.allocUnit
        = (stripeGeometry lp size).bucketSizeAu * lp.allocUnit * passBucket s := by ring
      _ ≤ (stripeGeometry lp size).bucketSizeAu * lp.allocUnit * lp.interleaveParam.nbuckets :=
          Nat.mul_le_mul_left _ hlt.le
      _ ≤ lp.devsize := buckets_fit lp size
  rw [passStart, bucketPos_next hcur rfl (by change passBucket s < _; omega) (lt_of_le_of_lt hfit hdev) hunit]
  exact Nat.mul_div_cancel _ hunit

theorem StripedCall.buckets (h : StripedCall lp size)
    (hheads : HeadsFrom (stripeGeometry lp size) (stripStart host lp) (stripPasses host lp size)) :
    (stripPasses host lp size).Pairwise (fun s t => passBucket s ≠ passBucket t) ∧
      ∀ s ∈ stripPasses host lp size, passBucket s < lp.interleaveParam.nbuckets ∧
        passStart (stripeGeometry lp size) s = passBucket s * (stripeGeometry lp size).bucketSizeAu := by
  have hfew := (famfsValidateInterleaveParam_bounds h.accepted h.lo).2
  have hperm : (stripStart host lp).bs.buckets.Perm (List.range lp.interleaveParam.nbuckets) := by
    rw [List.range_eq_range']
    exact bucketSeriesAlloc_perm host.rand h.nbuckets_pos (by omega)
  have hlen : (stripPasses host lp size).length ≤ lp.interleaveParam.nbuckets := stripHeads_length_le _ _ _
  have hin : ∀ {i : ℕ}, i < (stripPasses host lp size).length → i < (stripStart host lp).bs.buckets.length := by
    intro i hi
    rw [hperm.length_eq, List.length_range]
    exact lt_of_lt_of_le hi hlen
  have hbucket : ∀ {i : ℕ} (hi : i < (stripPasses host lp size).length),
      passBucket (stripPasses host lp size)[i] = (stripStart host lp).bs.buckets.get ⟨i, hin hi⟩ := by
    intro i hi
    rw [passBucket, passes_buckets hheads hi, List.getD_eq_getElem _ _ (hin hi), List.get_eq_getElem]
  constructor
  · rw [List.pairwise_iff_getElem]
    intro i j hi hj hij
    rw [hbucket hi, hbucket hj, Ne, (hperm.nodup_iff.2 List.nodup_range).get_inj_iff, Fin.mk.injEq]
    exact hij.ne
  · intro s hs
    obtain ⟨i, hi, rfl⟩ := List.getElem_of_mem hs
    have hlt : passBucket (stripPasses host lp size)[i] < lp.interleaveParam.nbuckets := by
      rw [hbucket hi]
      exact List.mem_range.1 (hperm.mem_iff.1 (List.get_mem _ _))
    refine ⟨hlt, passStart_eq h.unit_pos.1 h.dev hfew ?_ hlt⟩
    rw [passes_buckets hheads hi]
    exact lt_of_lt_of_le hi hlen

theorem bucket_end (lp : FamfsLockedLog) (size : ℕ) {b : ℕ} (hb : b < lp.interleaveParam.nbuckets) :
    b * (stripeGeometry lp size).bucketSizeAu + (stripeGeometry lp size).bucketSizeAu ≤ lp.devsize / lp.allocUnit := by
  calc b * (stripeGeometry lp size).bucketSizeAu + (stripeGeometry lp size).bucketSizeAu
      = (b + 1) * (stripeGeometry lp size).bucketSizeAu := (Nat.succ_mul _ _).symm
    _ ≤ lp.interleaveParam.nbuckets * (stripeGeometry lp size).bucketSizeAu := Nat.mul_le_mul_right _ hb
    _ ≤ lp.devsize / lp.allocUnit := Nat.mul_div_le _ _

theorem StripedCall.start_fits (h : StripedCall lp size) {b : ℕ} (hb : b < lp.interleaveParam.nbuckets) :
    b * (stripeGeometry lp size).bucketSizeAu + (stripeGeometry lp size).bucketSizeAu < 2 ^ 64 :=
  lt_of_le_of_lt ((bucket_end lp size hb).trans (Nat.div_le_self _ _)) h.dev

theorem StripedCall.stripUnits_eq (h : StripedCall lp size) (hunit : lp.allocUnit = FAMFS_ALLOC_UNIT)
    (hdev : lp.devsize < 2 ^ 30 * FAMFS_ALLOC_UNIT) :
    (stripeGeometry lp size).stripUnits * FAMFS_ALLOC_UNIT =
        divUp size (lp.interleaveParam.nstrips * lp.interleaveParam.chunkSize) * lp.interleaveParam.chunkSize ∧
      (stripeGeometry lp size).stripUnits < 2 ^ 31 := by
  obtain ⟨hmul, hpos, -, -⟩ := famfsValidateInterleaveParam_zero h.accepted h.lo
  have hle := h.chunk
  have hsize := h.size
  rw [hunit] at hmul
  simp only [FAMFS_ALLOC_UNIT] at hdev
  have hkc : lp.interleaveParam.chunkSize ≤ lp.interleaveParam.nstrips * lp.interleaveParam.chunkSize :=
    Nat.le_mul_of_pos_left _ h.lo
  have hmono : divUp size (lp.interleaveParam.nstrips * lp.interleaveParam.chunkSize) ≤
      divUp size lp.interleaveParam.chunkSize := by
    rw [divUp_le (by omega)]
    exact (divUp_mul_ge size hpos).trans (Nat.mul_le_mul_left _ hkc)
  have hbytes : divUp size (lp.interleaveParam.nstrips * lp.interleaveParam.chunkSize) * lp.interleaveParam.chunkSize <
      2 ^ 52 := by
    have h1 := Nat.mul_le_mul_right lp.interleaveParam.chunkSize hmono
    have h2 := divUp_mul_lt (n := size) hpos
    omega
  have hfew : divUp size (lp.interleaveParam.nstrips * lp.interleaveParam.chunkSize) < 2 ^ 31 := by
    have hc : FAMFS_ALLOC_UNIT ≤ lp.interleaveParam.chunkSize := Nat.le_of_dvd hpos (Nat.dvd_of_mod_eq_zero hmul)
    have := Nat.mul_le_mul_left (divUp size (lp.interleaveParam.nstrips * lp.interleaveParam.chunkSize)) hc
    simp only [FAMFS_ALLOC_UNIT] at this
    omega
  have hlen := strip_bytes hunit hmul hpos (by omega) h.lo h.hi (by simp only [FAMFS_ALLOC_UNIT]; omega) hfew (by omega)
  refine ⟨hlen, ?_⟩
  simp only [FAMFS_ALLOC_UNIT] at hlen
  omega

end

end Famfs
